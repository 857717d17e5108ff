import Filth.Queue.Linearizable
import Filth.Sched.Retirement
import Mathlib.Data.Finset.Card
import Mathlib.Data.List.Perm.Basic
import Mathlib.Data.List.ReduceOption

/-!
# The scheduler and its workers around the queue

`Worker::work`, `Scheduler::poll` and `Scheduler::halt` once more, now as users of a job queue in
which calls begin and return. The crew takes and adds jobs at one moment; here each thread goes
through its calls, and with the lock-free queue in between, what can be seen of the threads is what
can be seen of a crew.
-/

namespace Filth.Sched

open Base

/-- Who calls the job queue: the loop of `poll`, each call of `halt`, and the workers. A signal may
interrupt the scheduler in a call of its own. -/
inductive Caller (T : Type) where
  | poll
  | halt (n : Nat)
  | worker (t : T)
  deriving DecidableEq, Repr

/-- Where a caller is, `src/Worker.cpp:17–36`: in no call, about to enqueue, in `enq`, in
`wait_deq`, with a job, or past its loop. -/
inductive Place (Job : Type) where
  | free
  | about (job : Option Job)
  | during (job : Option Job)
  | asking
  | holding (w : Job)
  | retired
  deriving DecidableEq, Repr

/-- With what comes from `wait_deq`, `src/Worker.cpp:20–24`: a pill is put back. -/
def Place.took {Job : Type} : Option Job → Place Job
  | none => .about none
  | some w => .holding w

/-- Where a caller is after `enq`. -/
def Caller.rest {T Job : Type} : Caller T → Place Job
  | worker _ => .retired
  | _ => .free

/-- The scheduler and the workers without the job queue. The last two fields are for the proofs
alone. -/
structure Staff (T Job Event : Type) where
  place : Caller T → Place Job
  phase : Phase
  batch : List Event
  dowork : Bool
  /-- The jobs that events have been for. -/
  handled : List Job
  executed : List Job

/-- What they do apart from calling the job queue. -/
inductive StaffAct (T Job Event : Type) where
  | report (events : List Event)
  | handle (job : Option Job)
  | check
  | next
  | leave
  | halt (n : Nat)
  | execute (t : T)
  deriving DecidableEq, Repr

/-- What can be seen of the scheduler and the workers. -/
inductive CrewEvent (T Job Event : Type) where
  | report (events : List Event)
  | leave
  | halt
  | execute (t : T) (w : Job)
  deriving DecidableEq, Repr

variable {T Job Event : Type}

/-- What can be seen of a step of the crew. -/
def Crew.see (c : Crew T Job Event) :
    CrewAct T Job Event → Crew T Job Event → List (CrewEvent T Job Event)
  | .report events, _ => [.report events]
  | .leave, _ => [.leave]
  | .halt, _ => [.halt]
  | .execute t, _ =>
    match c.hands t with
    | .took _ (some w) => [.execute t w]
    | _ => []
  | _, _ => []

namespace Staff

/-- A scheduler that is about to wait for events, and workers that are about to wait for jobs. -/
def new : Staff T Job Event :=
  { place := fun _ ↦ .free, phase := .waiting, batch := [], dowork := true
    handled := [], executed := [] }

/-- What can be seen of a step. -/
def see (k : Staff T Job Event) :
    StaffAct T Job Event → Staff T Job Event → List (CrewEvent T Job Event)
  | .report events, _ => [.report events]
  | .leave, _ => [.leave]
  | .halt _, _ => [.halt]
  | .execute t, _ =>
    match k.place (.worker t) with
    | .holding w => [.execute t w]
    | _ => []
  | _, _ => []

variable [DecidableEq T]

/-- A caller goes on. -/
def goto (k : Staff T Job Event) (d : Caller T) (p : Place Job) : Staff T Job Event :=
  { k with place := Function.update k.place d p }

private theorem place_goto (k : Staff T Job Event) (d : Caller T) (p : Place Job) :
    (k.goto d p).place d = p := Function.update_self _ _ _

private theorem place_goto_of_ne (k : Staff T Job Event) {d e : Caller T} (he : e ≠ d)
    (p : Place Job) :
    (k.goto d p).place e = k.place e := Function.update_of_ne he _ _

/-- Call `enq` next, if there is work; `src/Scheduler.cpp:213–220`. -/
def enqWork (k : Staff T Job Event) : Option Job → Staff T Job Event
  | none => k
  | some w => { k with handled := k.handled ++ [w] }.goto .poll (.about (some w))

/-- The loop of `poll` between its calls of `enq`, `src/Scheduler.cpp:158–228`. -/
def poll (k : Staff T Job Event) : StaffAct T Job Event → Option (Staff T Job Event)
  | .report events =>
    if k.phase = .waiting ∧ k.dowork = true then some { k with phase := .handling, batch := events }
    else none
  | .handle job =>
    match k.phase, k.batch with
    | .handling, _ :: batch => some ({ k with phase := .checking, batch }.enqWork job)
    | _, _ => none
  | .check =>
    if k.phase = .checking then
      some (if k.dowork then { k with phase := .handling }
        else { k with phase := .waiting, batch := [] })
    else none
  | .next =>
    if k.phase = .handling ∧ k.batch.isEmpty then some { k with phase := .waiting } else none
  | .leave =>
    if k.phase = .waiting ∧ k.dowork = false then some { k with phase := .retired } else none
  | _ => none

/-- One step. -/
def step (k : Staff T Job Event) : StaffAct T Job Event → Option (Staff T Job Event)
  | .halt n =>
    match k.place (.halt n) with
    | .free => some ({ k with dowork := false }.goto (.halt n) (.about none))
    | _ => none
  | .execute t =>
    match k.place (.worker t) with
    | .holding w => some ({ k with executed := w :: k.executed }.goto (.worker t) .free)
    | _ => none
  | a =>
    match k.place .poll with
    | .free => k.poll a
    | _ => none

/-- A call of the job queue begins or returns. -/
def on [DecidableEq Job] (k : Staff T Job Event) :
    QueueEvent (Caller T) (Option Job) → Option (Staff T Job Event)
  | .call d (.enq v) =>
    match k.place d with
    | .about u => if u = v then some (k.goto d (.during v)) else none
    | _ => none
  | .call (.worker t) (.deq true) =>
    match k.place (.worker t) with
    | .free => some (k.goto (.worker t) .asking)
    | _ => none
  | .ret d .enqueued =>
    match k.place d with
    | .during _ => some (k.goto d d.rest)
    | _ => none
  | .ret d (.got v) =>
    match k.place d with
    | .asking => some (k.goto d (.took v))
    | _ => none
  | _ => none

end Staff

/-- The scheduler and any number of workers as users of the job queue. -/
def staff (T Job Event : Type) [DecidableEq T] [DecidableEq Job] :
    Client (Staff T Job Event) (StaffAct T Job Event) (QueueEvent (Caller T) (Option Job)) where
  init := .new
  step := Staff.step
  on := Staff.on

/-! ### What a crew is to the staff -/

/-- A job is on its way from who posts it until `enq` takes effect. -/
inductive Posting : Place Job → QueueCall (Option Job) → Option (Option Job) → Prop
  | free {r} : Posting .free (.idle r) none
  | about {v r} : Posting (.about v) (.idle r) (some v)
  | called {v} : Posting (.during v) (.called (.enq v)) (some v)
  | done {v} : Posting (.during v) (.done .enqueued) none

/-- A worker has a job from when `wait_deq` takes effect, and none any more when `enq` has. -/
inductive Working : Place Job → QueueCall (Option Job) → Hands Job → Prop
  | free {r} : Working .free (.idle r) .waiting
  | asking : Working .asking (.called (.deq true)) .waiting
  | got {n v} : Working .asking (.done (.got v)) (.took n v)
  | pill {n r} : Working (.about none) (.idle r) (.took n none)
  | called {n} : Working (.during none) (.called (.enq none)) (.took n none)
  | done : Working (.during none) (.done .enqueued) .retired
  | holding {n w r} : Working (.holding w) (.idle r) (.took n (some w))
  | retired {r} : Working .retired (.idle r) .retired

/-- While its job is on the way, the scheduler is one event ahead. -/
inductive Ahead (k : Staff T Job Event) (c : Crew T Job Event) : Option (Option Job) → Prop
  | level (hphase : c.phase = k.phase) (hbatch : c.batch = k.batch)
      (hhandled : k.handled = c.enqueued.reduceOption) : Ahead k c none
  | one {e w} (hphase : k.phase = .checking) (hbehind : c.phase = .handling)
      (hbatch : c.batch = e :: k.batch)
      (hhandled : k.handled = c.enqueued.reduceOption ++ [w]) : Ahead k c (some (some w))

/-- How far the scheduler is ahead does not depend on who else has gone on. -/
theorem Ahead.congr {k k' : Staff T Job Event} {c c' : Crew T Job Event} {o : Option (Option Job)}
    (h : Ahead k c o) (hc : c'.phase = c.phase ∧ c'.batch = c.batch ∧
      c'.enqueued.reduceOption = c.enqueued.reduceOption)
    (hk : k'.phase = k.phase ∧ k'.batch = k.batch ∧ k'.handled = k.handled) : Ahead k' c' o := by
  obtain ⟨hcp, hcb, hcn⟩ := hc
  obtain ⟨hkp, hkb, hkh⟩ := hk
  cases h with
  | level hphase hbatch hhandled =>
    refine .level ?_ ?_ ?_
    · rw [hcp, hphase, hkp]
    · rw [hcb, hbatch, hkb]
    · rw [hcn, hkh, hhandled]
  | @one e w hphase hbehind hbatch hhandled =>
    refine .one (e := e) (w := w) (hkp.trans hphase) (hcp.trans hbehind) ?_ ?_
    · rw [hcb, hbatch, hkb]
    · rw [hkh, hcn, hhandled]

/-- Only what has been enqueued is executed. -/
theorem Booked.lt_of_executed {c : Crew T Job Event} (hc : Booked c) {n : Nat}
    (hn : n ∈ c.executed) : n < c.enqueued.length := by
  obtain ⟨t, job, ht⟩ := hc.past n hn
  have hmem : (n, job) ∈ numbered c.enqueued := by
    rw [← hc.fifo]
    exact List.mem_append_left _ (List.mem_map_of_mem ht)
  exact (List.getElem?_eq_some_iff.mp ((mem_numbered _).mp hmem)).1

/-- A crew that has in its queue what the queue contains, and where everybody is where the calls
that have taken effect put them. -/
structure Agrees (q : ConcurrentQueue (Caller T) (Option Job)) (k : Staff T Job Event)
    (c : Crew T Job Event) : Prop where
  booked : Booked c
  jobq : c.jobq.map Prod.snd = q.contents
  dowork : c.dowork = k.dowork
  poll : ∃ o, Posting (k.place .poll) (q.call .poll) o ∧ Ahead k c o
  halts : ∃ S : Finset Nat, S.card = c.halting ∧
    ∀ n, Posting (k.place (.halt n)) (q.call (.halt n)) (if n ∈ S then some none else none)
  worker : ∀ t, Working (k.place (.worker t)) (q.call (.worker t)) (c.hands t)
  executed : c.executed.map (fun n ↦ c.enqueued[n]?) = k.executed.map fun w ↦ some (some w)

/-- Nobody but this caller has gone on. -/
def Aside (d : Caller T) (q : ConcurrentQueue (Caller T) (Option Job)) (k : Staff T Job Event)
    (q' : ConcurrentQueue (Caller T) (Option Job)) (k' : Staff T Job Event) : Prop :=
  ∀ e, e ≠ d → k'.place e = k.place e ∧ q'.call e = q.call e

namespace Agrees

variable {q q' : ConcurrentQueue (Caller T) (Option Job)} {k k' : Staff T Job Event}
  {c c' : Crew T Job Event} {d : Caller T} {t : T} {n : Nat} {v : Option Job}

theorem new : Agrees (.new : ConcurrentQueue (Caller T) (Option Job)) .new
    (.new : Crew T Job Event) where
  booked := .new
  jobq := rfl
  dowork := rfl
  poll := ⟨none, .free, .level rfl rfl rfl⟩
  halts := ⟨∅, rfl, fun _ ↦ .free⟩
  worker _ := .free
  executed := rfl

/-- What is true of the calls of `halt` is so when somebody else goes on. -/
theorem halts_of_aside (h : Agrees q k c) (hd : ∀ n, d ≠ .halt n) (haside : Aside d q k q' k')
    (hhalting : c'.halting = c.halting) :
    ∃ S : Finset Nat, S.card = c'.halting ∧ ∀ n,
      Posting (k'.place (.halt n)) (q'.call (.halt n)) (if n ∈ S then some none else none) := by
  obtain ⟨S, hcard, hS⟩ := h.halts
  refine ⟨S, hcard.trans hhalting.symm, fun n ↦ ?_⟩
  obtain ⟨hplace, hcall⟩ := haside _ (hd n).symm
  rw [hplace, hcall]
  exact hS n

/-- And what is true of the workers. -/
theorem worker_of_aside (h : Agrees q k c) (hd : ∀ t, d ≠ .worker t) (haside : Aside d q k q' k')
    (hhands : c'.hands = c.hands) (t : T) :
    Working (k'.place (.worker t)) (q'.call (.worker t)) (c'.hands t) := by
  obtain ⟨hplace, hcall⟩ := haside _ (hd t).symm
  rw [hplace, hcall, hhands]
  exact h.worker t

/-- And of the loop of `poll`. -/
theorem poll_of_aside (h : Agrees q k c) (hd : d ≠ .poll) (haside : Aside d q k q' k')
    (hc : c'.phase = c.phase ∧ c'.batch = c.batch ∧
      c'.enqueued.reduceOption = c.enqueued.reduceOption)
    (hk : k'.phase = k.phase ∧ k'.batch = k.batch ∧ k'.handled = k.handled) :
    ∃ o, Posting (k'.place .poll) (q'.call .poll) o ∧ Ahead k' c' o := by
  obtain ⟨o, ho, hahead⟩ := h.poll
  obtain ⟨hplace, hcall⟩ := haside _ hd.symm
  rw [hplace, hcall]
  exact ⟨o, ho, hahead.congr hc hk⟩

/-- A caller has gone on, and the crew has not. -/
theorem quiet (h : Agrees q k c) {place : Caller T → Place Job}
    (haside : Aside d q k q' { k with place }) (hq : q'.contents = q.contents)
    (hpost : (∀ t, d ≠ .worker t) → ∀ o, Posting (k.place d) (q.call d) o →
      Posting (place d) (q'.call d) o)
    (hwork : ∀ t, d = .worker t → ∀ hands, Working (k.place d) (q.call d) hands →
      Working (place d) (q'.call d) hands) : Agrees q' { k with place } c := by
  constructor
  case booked => exact h.booked
  case jobq => exact h.jobq.trans hq.symm
  case dowork => exact h.dowork
  case executed => exact h.executed
  case poll =>
    by_cases hd : d = .poll
    · subst hd
      obtain ⟨o, ho, hahead⟩ := h.poll
      exact ⟨o, hpost (by simp) o ho, hahead.congr ⟨rfl, rfl, rfl⟩ ⟨rfl, rfl, rfl⟩⟩
    · exact h.poll_of_aside hd haside ⟨rfl, rfl, rfl⟩ ⟨rfl, rfl, rfl⟩
  case halts =>
    obtain ⟨S, hcard, hS⟩ := h.halts
    refine ⟨S, hcard, fun n ↦ ?_⟩
    by_cases hd : d = .halt n
    · subst hd
      exact hpost (by simp) _ (hS n)
    · obtain ⟨hplace, hcall⟩ := haside _ (Ne.symm hd)
      rw [hplace, hcall]
      exact hS n
  case worker =>
    intro t
    by_cases hd : d = .worker t
    · subst hd
      exact hwork t rfl _ (h.worker t)
    · obtain ⟨hplace, hcall⟩ := haside _ (Ne.symm hd)
      rw [hplace, hcall]
      exact h.worker t

/-- What has been executed keeps its number. -/
theorem executed_enq (h : Agrees q k c) (job : Option Job) :
    c.executed.map (fun n ↦ (c.enqueued ++ [job])[n]?) = k.executed.map fun w ↦ some (some w) := by
  rw [← h.executed]
  refine List.map_congr_left fun n hn ↦ ?_
  exact List.getElem?_append_left (h.booked.lt_of_executed hn)

/-- What is enqueued comes to the end of both queues. -/
theorem jobq_enq (h : Agrees q k c) (job : Option Job) :
    (c.jobq ++ [(c.enqueued.length, job)]).map Prod.snd = q.contents ++ [job] := by
  rw [List.map_append, h.jobq]
  rfl

/-- Who has retired has done so in the crew. -/
theorem hands_of_retired (h : Agrees q k c) (ht : k.place (.worker t) = .retired) :
    c.hands t = .retired := by
  have hw := h.worker t
  rw [ht] at hw
  generalize q.call (.worker t) = x at hw
  generalize c.hands t = hands at hw ⊢
  cases hw
  rfl

/-- Who has a job has it in the crew. -/
theorem hands_of_holding (h : Agrees q k c) {w : Job} (ht : k.place (.worker t) = .holding w) :
    ∃ n, c.hands t = .took n (some w) := by
  have hw := h.worker t
  rw [ht] at hw
  generalize q.call (.worker t) = x at hw
  generalize c.hands t = hands at hw ⊢
  cases hw
  exact ⟨_, rfl⟩

/-- Only workers dequeue, and they wait for what there is. -/
theorem worker_of_deq (h : Agrees q k c) {wait : Bool} (hcall : q.call d = .called (.deq wait)) :
    wait = true ∧ ∃ t, d = .worker t ∧ k.place d = .asking ∧ c.hands t = .waiting := by
  cases d with
  | poll =>
    obtain ⟨o, ho, -⟩ := h.poll
    generalize k.place .poll = p at ho
    rw [hcall] at ho
    cases ho
  | halt n =>
    obtain ⟨S, -, hS⟩ := h.halts
    have hn := hS n
    generalize k.place (.halt n) = p at hn
    rw [hcall] at hn
    cases hn
  | worker t =>
    have hw := h.worker t
    generalize hplace : k.place (.worker t) = p at hw
    generalize hhands : c.hands t = hands at hw
    rw [hcall] at hw
    cases hw
    exact ⟨rfl, t, rfl, rfl, hhands⟩

variable [DecidableEq T]

/-- One worker goes on. -/
theorem worker_goes (h : Agrees q k c) (haside : Aside (.worker t) q k q' k') {hands : Hands Job}
    (hhands : c'.hands = Function.update c.hands t hands)
    (ht : Working (k'.place (.worker t)) (q'.call (.worker t)) hands) (u : T) :
    Working (k'.place (.worker u)) (q'.call (.worker u)) (c'.hands u) := by
  rw [hhands]
  by_cases hut : u = t
  · subst hut
    rw [Function.update_self]
    exact ht
  · obtain ⟨hplace, hcall⟩ := haside (.worker u) (by simpa using hut)
    rw [hplace, hcall, Function.update_of_ne hut]
    exact h.worker u

/-- One step of the crew and what can be seen of it. -/
theorem shows_of_step {a : CrewAct T Job Event} {es : List (CrewEvent T Job Event)}
    (ha : c.step a = some c') (hsee : c.see a c' = es) :
    (crew T Job Event).Shows Crew.see c c' es := by
  rw [← hsee]
  exact .of_step ha

/-- The job of an event is added. -/
private theorem effect_poll (h : Agrees q k c) (hcall : q.call .poll = .called (.enq v)) :
    ∃ c', Agrees ({ q with contents := q.contents ++ [v] }.goto .poll (.done .enqueued)) k c' ∧
      (crew T Job Event).Shows Crew.see c c' [] := by
  obtain ⟨o, ho, hahead⟩ := h.poll
  generalize hplace : k.place .poll = p at ho
  rw [hcall] at ho
  cases ho
  cases hahead with
  | @one e w hphase hbehind hbatch hhandled =>
    have hstep : c.step (.handle (some w)) =
        some ({ c with phase := .checking, batch := k.batch }.enq (some w)) := by
      rw [Crew.step, hbehind, hbatch]
      rfl
    refine ⟨_, ?_, shows_of_step hstep rfl⟩
    have haside : Aside .poll q k
        ({ q with contents := q.contents ++ [some w] }.goto .poll (.done .enqueued)) k :=
      fun e he ↦ ⟨rfl, ConcurrentQueue.call_goto_of_ne he⟩
    constructor
    case booked => exact h.booked.step hstep
    case jobq => exact h.jobq_enq (some w)
    case dowork => exact h.dowork
    case executed => exact h.executed_enq (some w)
    case poll =>
      refine ⟨none, ?_, .level hphase.symm rfl ?_⟩
      · rw [hplace, ConcurrentQueue.call_goto]
        exact .done
      · rw [hhandled, Crew.enq, List.reduceOption_append]
        rfl
    case halts => exact h.halts_of_aside (by simp) haside rfl
    case worker => exact h.worker_of_aside (by simp) haside rfl

/-- The pill of a call of `halt` is added. -/
private theorem effect_halt (h : Agrees q k c) (hcall : q.call (.halt n) = .called (.enq v)) :
    ∃ c', Agrees ({ q with contents := q.contents ++ [v] }.goto (.halt n) (.done .enqueued)) k c' ∧
      (crew T Job Event).Shows Crew.see c c' [] := by
  obtain ⟨S, hcard, hS⟩ := h.halts
  have hn := hS n
  generalize hplace : k.place (.halt n) = p at hn
  rw [hcall] at hn
  split at hn
  case isFalse => cases hn
  case isTrue hmem =>
    cases hn
    have hpos : 0 < c.halting := by
      rw [← hcard]
      exact Finset.card_pos.mpr ⟨n, hmem⟩
    have hstep : c.step .pill = some { c.enq none with halting := c.halting - 1 } := by
      rw [Crew.step, if_pos hpos]
    refine ⟨_, ?_, shows_of_step hstep rfl⟩
    have haside : Aside (.halt n) q k
        ({ q with contents := q.contents ++ [none] }.goto (.halt n) (.done .enqueued)) k :=
      fun e he ↦ ⟨rfl, ConcurrentQueue.call_goto_of_ne he⟩
    constructor
    case booked => exact h.booked.step hstep
    case jobq => exact h.jobq_enq none
    case dowork => exact h.dowork
    case executed => exact h.executed_enq none
    case poll =>
      refine h.poll_of_aside (by simp) haside ⟨rfl, rfl, ?_⟩ ⟨rfl, rfl, rfl⟩
      rw [Crew.enq, List.reduceOption_append]
      exact List.append_nil _
    case halts =>
      refine ⟨S.erase n, ?_, fun m ↦ ?_⟩
      · rw [Finset.card_erase_of_mem hmem, hcard]
      · by_cases hmn : m = n
        · subst hmn
          rw [hplace, ConcurrentQueue.call_goto, if_neg (Finset.notMem_erase _ _)]
          exact .done
        · obtain ⟨-, hother⟩ := haside (.halt m) (by simpa using hmn)
          rw [hother]
          simpa [Finset.mem_erase, hmn] using hS m
    case worker => exact h.worker_of_aside (by simp) haside rfl

/-- A worker puts the pill back. -/
private theorem effect_putBack (h : Agrees q k c) (hcall : q.call (.worker t) = .called (.enq v)) :
    ∃ c',
      Agrees ({ q with contents := q.contents ++ [v] }.goto (.worker t) (.done .enqueued)) k c' ∧
      (crew T Job Event).Shows Crew.see c c' [] := by
  have hw := h.worker t
  generalize hplace : k.place (.worker t) = p at hw
  generalize hhands : c.hands t = hands at hw
  rw [hcall] at hw
  cases hw
  have hstep : c.step (.putBack t) =
      some { c.enq none with hands := Function.update c.hands t .retired } := by
    rw [Crew.step, hhands]
  refine ⟨_, ?_, shows_of_step hstep rfl⟩
  have haside : Aside (.worker t) q k
      ({ q with contents := q.contents ++ [none] }.goto (.worker t) (.done .enqueued)) k :=
    fun e he ↦ ⟨rfl, ConcurrentQueue.call_goto_of_ne he⟩
  constructor
  case booked => exact h.booked.step hstep
  case jobq => exact h.jobq_enq none
  case dowork => exact h.dowork
  case executed => exact h.executed_enq none
  case poll =>
    refine h.poll_of_aside (by simp) haside ⟨rfl, rfl, ?_⟩ ⟨rfl, rfl, rfl⟩
    rw [Crew.enq, List.reduceOption_append]
    exact List.append_nil _
  case halts => exact h.halts_of_aside (by simp) haside rfl
  case worker =>
    refine h.worker_goes haside rfl ?_
    rw [hplace, ConcurrentQueue.call_goto]
    exact .done

/-- A worker takes what is at the front. -/
private theorem effect_take (h : Agrees q k c) {wait : Bool} {l : List (Option Job)}
    (hcall : q.call d = .called (.deq wait)) (hl : q.contents = v :: l) :
    ∃ c', Agrees ({ q with contents := l }.goto d (.done (.got v))) k c' ∧
      (crew T Job Event).Shows Crew.see c c' [] := by
  obtain ⟨-, t, rfl, hplace, hhands⟩ := h.worker_of_deq hcall
  obtain ⟨⟨n, job⟩, jobq, hjobq, rfl, hrest⟩ := List.map_eq_cons_iff.mp (h.jobq.trans hl)
  have hstep : c.step (.take t) = some { c with
      jobq, hands := Function.update c.hands t (.took n job)
      taken := c.taken ++ [(t, n, job)] } := by
    rw [Crew.step, hhands, hjobq]
  refine ⟨_, ?_, shows_of_step hstep rfl⟩
  have haside : Aside (.worker t) q k
      ({ q with contents := l }.goto (.worker t) (.done (.got job))) k :=
    fun e he ↦ ⟨rfl, ConcurrentQueue.call_goto_of_ne he⟩
  constructor
  case booked => exact h.booked.step hstep
  case jobq => exact hrest
  case dowork => exact h.dowork
  case executed => exact h.executed
  case poll => exact h.poll_of_aside (by simp) haside ⟨rfl, rfl, rfl⟩ ⟨rfl, rfl, rfl⟩
  case halts => exact h.halts_of_aside (by simp) haside rfl
  case worker =>
    refine h.worker_goes haside rfl ?_
    rw [hplace, ConcurrentQueue.call_goto]
    exact .got

/-- A call takes effect: an event's job is added, a pill is, or a worker takes what there is. -/
theorem effect (h : Agrees q k c) (heffect : q.effect d = some q') :
    ∃ c', Agrees q' k c' ∧ (crew T Job Event).Shows Crew.see c c' [] := by
  unfold ConcurrentQueue.effect at heffect
  split at heffect
  case h_1 v l hcall =>
    cases heffect
    cases d with
    | poll => exact h.effect_poll hcall
    | halt n => exact h.effect_halt hcall
    | worker t => exact h.effect_putBack hcall
  case h_2 hcall hl =>
    cases heffect
    exact h.effect_take hcall hl
  case h_3 hcall hl => cases (h.worker_of_deq hcall).1
  case h_4 => cases heffect

/-! #### Calls that begin and return -/

/-- A caller goes on in the queue and at its place, and nobody else does. -/
theorem goto_quiet (h : Agrees q k c) {p₀ p : Place Job} {x₀ x : QueueCall (Option Job)}
    (hp : k.place d = p₀) (hx : q.call d = x₀)
    (hpost : (∀ t, d ≠ .worker t) → ∀ o, Posting p₀ x₀ o → Posting p x o)
    (hwork : ∀ t, d = .worker t → ∀ hands, Working p₀ x₀ hands → Working p x hands) :
    Agrees (q.goto d x) (k.goto d p) c := by
  have hplace : Function.update k.place d p d = p := k.place_goto d p
  have hcall : (q.goto d x).call d = x := q.call_goto d x
  refine h.quiet (d := d) (fun e he ↦ ?_) rfl ?_ ?_
  · exact ⟨k.place_goto_of_ne he p, ConcurrentQueue.call_goto_of_ne he⟩
  · rw [hplace, hcall, hp, hx]
    exact hpost
  · rw [hplace, hcall, hp, hx]
    exact hwork

variable [DecidableEq Job]

/-- A call begins. -/
theorem call (h : Agrees q k c) {op : QueueOp (Option Job)} {r : Option (LockFree.Ret (Option Job))}
    (hcall : q.call d = .idle r) (hon : k.on (.call d op) = some k') :
    Agrees (q.goto d (.called op)) k' c := by
  unfold Staff.on at hon
  split at hon
  case h_1 hev =>
    cases hev
    split at hon
    case h_1 u hplace =>
      split at hon
      case isTrue huv =>
        cases hon
        subst huv
        refine h.goto_quiet hplace hcall (fun _ o ho ↦ ?_) fun t _ hands hh ↦ ?_
        · cases ho
          exact .called
        · cases hh
          exact .called
      case isFalse => cases hon
    case h_2 => cases hon
  case h_2 t hev =>
    cases hev
    split at hon
    case h_1 hplace =>
      cases hon
      refine h.goto_quiet hplace hcall (fun hd ↦ absurd rfl (hd t)) fun u _ hands hh ↦ ?_
      cases hh
      exact .asking
    case h_2 => cases hon
  case h_3 hev => cases hev
  case h_4 hev => cases hev
  case h_5 => cases hon

/-- A call returns. -/
theorem ret (h : Agrees q k c) {r : LockFree.Ret (Option Job)} (hcall : q.call d = .done r)
    (hon : k.on (.ret d r) = some k') : Agrees (q.goto d (.idle (some r))) k' c := by
  unfold Staff.on at hon
  split at hon
  case h_1 hev => cases hev
  case h_2 hev => cases hev
  case h_3 hev =>
    cases hev
    split at hon
    case h_1 v hplace =>
      cases hon
      refine h.goto_quiet hplace hcall (fun hd o ho ↦ ?_) fun t hd hands hh ↦ ?_
      · cases ho
        cases d with
        | worker t => exact absurd rfl (hd t)
        | _ => exact .free
      · subst hd
        cases hh
        exact .retired
    case h_2 => cases hon
  case h_4 v hev =>
    cases hev
    split at hon
    case h_1 hplace =>
      cases hon
      refine h.goto_quiet hplace hcall (fun _ o ho ↦ ?_) fun t _ hands hh ↦ ?_
      · cases ho
      · cases hh
        cases v with
        | none => exact .pill
        | some w => exact .holding
    case h_2 => cases hon
  case h_5 => cases hon

omit [DecidableEq Job]

/-! #### Steps of the scheduler and of the workers -/

omit [DecidableEq T] in
/-- With no job on the way, the scheduler of the crew is where this one is. -/
theorem level (h : Agrees q k c) (hfree : k.place .poll = .free) :
    Posting (k.place .poll) (q.call .poll) none ∧ c.phase = k.phase ∧ c.batch = k.batch ∧
      k.handled = c.enqueued.reduceOption := by
  obtain ⟨o, ho, hahead⟩ := h.poll
  rw [hfree] at ho ⊢
  generalize q.call .poll = x at ho
  cases ho
  cases hahead with
  | level hphase hbatch hhandled => exact ⟨.free, hphase, hbatch, hhandled⟩

/-- A step that both take in the same way. -/
theorem poll_same (h : Agrees q k c) (hfree : k.place .poll = .free) {a : CrewAct T Job Event}
    {phase : Phase} {batch : List Event} (hstep : c.step a = some { c with phase, batch }) :
    ∃ c', Agrees q { k with phase, batch } c' ∧
      (crew T Job Event).Shows Crew.see c c' (c.see a { c with phase, batch }) := by
  obtain ⟨hposting, -, -, hhandled⟩ := h.level hfree
  refine ⟨_, ?_, shows_of_step hstep rfl⟩
  constructor
  case booked => exact h.booked.step hstep
  case jobq => exact h.jobq
  case dowork => exact h.dowork
  case executed => exact h.executed
  case poll => exact ⟨none, hposting, .level rfl rfl hhandled⟩
  case halts => exact h.halts
  case worker => exact h.worker

/-- An event has been for a job, which is about to be enqueued. -/
private theorem poll_ahead (h : Agrees q k c) (hfree : k.place .poll = .free) {e : Event}
    {batch : List Event} (hphase : k.phase = .handling) (hbatch : k.batch = e :: batch) (w : Job) :
    Agrees q ({ k with phase := .checking, batch }.enqWork (some w)) c := by
  obtain ⟨hposting, hp, hb, hhandled⟩ := h.level hfree
  have haside : Aside .poll q k q ({ k with phase := .checking, batch }.enqWork (some w)) :=
    fun e he ↦ ⟨Staff.place_goto_of_ne _ he _, rfl⟩
  constructor
  case booked => exact h.booked
  case jobq => exact h.jobq
  case dowork => exact h.dowork
  case executed => exact h.executed
  case poll =>
    refine ⟨some (some w), ?_, .one rfl (hp.trans hphase) (hb.trans hbatch) ?_⟩
    · rw [hfree] at hposting
      generalize q.call .poll = x at hposting ⊢
      cases hposting
      rw [Staff.enqWork, Staff.place_goto]
      exact .about
    · exact congrArg (· ++ [w]) hhandled
  case halts => exact h.halts_of_aside (by simp) haside rfl
  case worker => exact h.worker_of_aside (by simp) haside rfl

/-- The loop of `poll` goes on. -/
private theorem poll_step (h : Agrees q k c) (hfree : k.place .poll = .free)
    {a : StaffAct T Job Event} (ha : k.poll a = some k') :
    ∃ c', Agrees q k' c' ∧ (crew T Job Event).Shows Crew.see c c' (k.see a k') := by
  obtain ⟨-, hphase, hbatch, -⟩ := h.level hfree
  cases a with
  | report events =>
    rw [Staff.poll] at ha
    split at ha
    case isFalse => cases ha
    case isTrue hwaiting =>
      cases ha
      have hstep : c.step (.report events) =
          some { c with phase := .handling, batch := events } := by
        rw [Crew.step, hphase, h.dowork, if_pos hwaiting]
      exact h.poll_same hfree hstep
  | handle job =>
    rw [Staff.poll] at ha
    split at ha
    case h_2 => cases ha
    case h_1 e batch hhandling hcons =>
      cases ha
      cases job with
      | none =>
        have hstep : c.step (.handle none) = some { c with phase := .checking, batch } := by
          rw [Crew.step, hphase, hhandling, hbatch, hcons]
          rfl
        exact h.poll_same hfree hstep
      | some w => exact ⟨c, h.poll_ahead hfree hhandling hcons w, .refl _ _ _⟩
  | check =>
    rw [Staff.poll] at ha
    split at ha
    case isFalse => cases ha
    case isTrue hchecking =>
      cases ha
      by_cases hdowork : k.dowork = true
      · have hstep : c.step .check = some { c with phase := .handling, batch := k.batch } := by
          rw [Crew.step, hphase, if_pos hchecking, h.dowork, if_pos hdowork, ← hbatch]
        rw [if_pos hdowork]
        exact h.poll_same hfree hstep
      · have hstep : c.step .check = some { c with phase := .waiting, batch := [] } := by
          rw [Crew.step, hphase, if_pos hchecking, h.dowork, if_neg hdowork]
        rw [if_neg hdowork]
        exact h.poll_same hfree hstep
  | next =>
    rw [Staff.poll] at ha
    split at ha
    case isFalse => cases ha
    case isTrue hhandling =>
      cases ha
      have hstep : c.step .next = some { c with phase := .waiting, batch := k.batch } := by
        rw [Crew.step, hphase, hbatch, if_pos hhandling, ← hbatch]
      exact h.poll_same hfree hstep
  | leave =>
    rw [Staff.poll] at ha
    split at ha
    case isFalse => cases ha
    case isTrue hwaiting =>
      cases ha
      have hstep : c.step .leave = some { c with phase := .retired, batch := k.batch } := by
        rw [Crew.step, hphase, h.dowork, if_pos hwaiting, ← hbatch]
      exact h.poll_same hfree hstep
  | halt => cases ha
  | execute => cases ha

/-- A call of `halt` begins. -/
private theorem halt_step (h : Agrees q k c) (hfree : k.place (.halt n) = .free) :
    ∃ c', Agrees q ({ k with dowork := false }.goto (.halt n) (.about none)) c' ∧
      (crew T Job Event).Shows Crew.see c c' [.halt] := by
  have hstep : c.step .halt = some { c with dowork := false, halting := c.halting + 1 } := rfl
  refine ⟨_, ?_, shows_of_step hstep rfl⟩
  have haside : Aside (.halt n) q k q ({ k with dowork := false }.goto (.halt n) (.about none)) :=
    fun e he ↦ ⟨Staff.place_goto_of_ne _ he _, rfl⟩
  obtain ⟨S, hcard, hS⟩ := h.halts
  have hn := hS n
  rw [hfree] at hn
  constructor
  case booked => exact h.booked.step hstep
  case jobq => exact h.jobq
  case dowork => rfl
  case executed => exact h.executed
  case poll => exact h.poll_of_aside (by simp) haside ⟨rfl, rfl, rfl⟩ ⟨rfl, rfl, rfl⟩
  case worker => exact h.worker_of_aside (by simp) haside rfl
  case halts =>
    have hmem : n ∉ S := by
      intro hmem
      rw [if_pos hmem] at hn
      generalize q.call (.halt n) = x at hn
      cases hn
    refine ⟨insert n S, ?_, fun m ↦ ?_⟩
    · rw [Finset.card_insert_of_notMem hmem, hcard]
    · by_cases hmn : m = n
      · subst hmn
        rw [if_neg hmem] at hn
        rw [Staff.place_goto, if_pos (Finset.mem_insert_self _ _)]
        generalize q.call (.halt m) = x at hn ⊢
        cases hn
        exact .about
      · obtain ⟨hplace, -⟩ := haside (.halt m) (by simpa using hmn)
        rw [hplace]
        simpa [Finset.mem_insert, hmn] using hS m

/-- A worker executes its job. -/
private theorem execute_step (h : Agrees q k c) {w : Job}
    (hholding : k.place (.worker t) = .holding w) :
    ∃ c', Agrees q ({ k with executed := w :: k.executed }.goto (.worker t) .free) c' ∧
      (crew T Job Event).Shows Crew.see c c' [.execute t w] := by
  have hw := h.worker t
  rw [hholding] at hw
  generalize hcall : q.call (.worker t) = x at hw
  generalize hhands : c.hands t = hands at hw
  cases hw with
  | @holding n w r =>
    have hstep : c.step (.execute t) = some { c with
        hands := Function.update c.hands t .waiting, executed := n :: c.executed } := by
      rw [Crew.step, hhands]
    have hsee : c.see (.execute t) { c with
        hands := Function.update c.hands t .waiting, executed := n :: c.executed } =
          [.execute t w] := by
      rw [Crew.see, hhands]
    refine ⟨_, ?_, shows_of_step hstep hsee⟩
    have haside : Aside (.worker t) q k q
        ({ k with executed := w :: k.executed }.goto (.worker t) .free) :=
      fun e he ↦ ⟨Staff.place_goto_of_ne _ he _, rfl⟩
    have hnumber : c.enqueued[n]? = some (some w) := by
      rw [← mem_numbered, ← h.booked.fifo]
      exact List.mem_append_left _ (List.mem_map_of_mem (h.booked.held t n _ hhands).1)
    constructor
    case booked => exact h.booked.step hstep
    case jobq => exact h.jobq
    case dowork => exact h.dowork
    case executed =>
      change c.enqueued[n]? :: c.executed.map _ = some (some w) :: k.executed.map _
      rw [hnumber, h.executed]
    case poll => exact h.poll_of_aside (by simp) haside ⟨rfl, rfl, rfl⟩ ⟨rfl, rfl, rfl⟩
    case halts => exact h.halts_of_aside (by simp) haside rfl
    case worker =>
      refine h.worker_goes haside rfl ?_
      rw [hcall, Staff.place_goto]
      exact .free

/-- Whatever the scheduler or a worker does on its own, a crew can do. -/
theorem step (h : Agrees q k c) {a : StaffAct T Job Event} (ha : k.step a = some k') :
    ∃ c', Agrees q k' c' ∧ (crew T Job Event).Shows Crew.see c c' (k.see a k') := by
  unfold Staff.step at ha
  split at ha
  case h_1 n =>
    split at ha
    case h_1 hfree =>
      cases ha
      exact h.halt_step hfree
    case h_2 => cases ha
  case h_2 t =>
    split at ha
    case h_1 w hholding =>
      cases ha
      rw [Staff.see, hholding]
      exact h.execute_step hholding
    case h_2 => cases ha
  case h_3 =>
    split at ha
    case h_1 hfree => exact h.poll_step hfree ha
    case h_2 => cases ha

end Agrees

/-- The scheduler and the workers around a queue do what a crew does. -/
theorem simulates (T Job Event : Type) [DecidableEq T] [DecidableEq Job] :
    Machine.Simulates
      ((concurrentQueue (Caller T) (Option Job)).usedBy ConcurrentQueue.see (staff T Job Event))
      (crew T Job Event) (Machine.seeClient Staff.see) Crew.see (fun p c ↦ Agrees p.1 p.2 c) where
  init := .new
  step := by
    rintro ⟨q, k⟩ a ⟨q', k'⟩ c h hstep
    cases a with
    | inl a =>
      obtain ⟨ha, hon⟩ := Machine.usedBy_inl.mp hstep
      cases a with
      | call d op =>
        change ConcurrentQueue.step q (.call d op) = some q' at ha
        rw [ConcurrentQueue.step] at ha
        split at ha
        case h_1 r hcall =>
          cases ha
          have hcalled : (staff T Job Event).on k (.call d op) = some k' := by
            simpa [ConcurrentQueue.see] using hon
          exact ⟨c, h.call hcall hcalled, .refl _ _ _⟩
        case h_2 => cases ha
      | effect d =>
        cases hon
        exact h.effect ha
      | ret d =>
        change ConcurrentQueue.step q (.ret d) = some q' at ha
        rw [ConcurrentQueue.step] at ha
        split at ha
        case h_1 r hcall =>
          cases ha
          have hreturned : (staff T Job Event).on k (.ret d r) = some k' := by
            simpa [ConcurrentQueue.see, hcall] using hon
          exact ⟨c, h.ret hcall hreturned, .refl _ _ _⟩
        case h_2 => cases ha
    | inr a =>
      obtain ⟨rfl, ha⟩ := Machine.usedBy_inr.mp hstep
      exact h.step ha

end Filth.Sched
