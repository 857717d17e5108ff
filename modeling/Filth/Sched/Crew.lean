import Filth.Base.Machine
import Mathlib.Data.List.Enum
import Mathlib.Data.List.Nodup
import Mathlib.Logic.Function.Basic

/-!
# The scheduler and its workers

`Worker::work`, `src/Worker.cpp:13–38`, the loop of `Scheduler::poll`,
`src/Scheduler.cpp:179–230`, and `Scheduler::halt`, `src/Scheduler.cpp:310–315`, around a job
queue that is first in, first out. A null pointer in the queue is a poison pill, which goes from
worker to worker. What the scheduler enqueues for an event is part of the action. Enqueueings
are numbered, and the last three fields of a crew are for the proofs alone.
-/

namespace Filth.Sched

open Base

/-- Where a worker is, `src/Worker.cpp:17–36`: before `wait_deq`, with what it got from there, or
past its loop. -/
inductive Hands (Job : Type) where
  | waiting
  | took (n : Nat) (job : Option Job)
  | retired
  deriving DecidableEq, Repr

/-- Where the scheduler is, `src/Scheduler.cpp:158–228`: in `epoll_wait`, before an event, after
one, or past its loop. -/
inductive Phase where
  | waiting | handling | checking | retired
  deriving DecidableEq, Repr

/-- The scheduler, the job queue and the workers. -/
structure Crew (T Job Event : Type) where
  jobq : List (Nat × Option Job)
  hands : T → Hands Job
  phase : Phase
  /-- Events that have been reported and not yet handled. -/
  batch : List Event
  dowork : Bool
  /-- Calls of `halt` that are between its two statements. -/
  halting : Nat
  /-- All that has been enqueued, by number. -/
  enqueued : List (Option Job)
  /-- Who has dequeued what. -/
  taken : List (T × Nat × Option Job)
  /-- The numbers of the jobs that have been executed. -/
  executed : List Nat

/-- What the scheduler and the workers do. A signal may halt the scheduler at any time. -/
inductive CrewAct (T Job Event : Type) where
  | report (events : List Event)
  | handle (job : Option Job)
  | check
  | next
  | leave
  | halt
  | pill
  | take (t : T)
  | putBack (t : T)
  | execute (t : T)
  deriving DecidableEq, Repr

variable {T Job Event : Type}

namespace Crew

/-- A scheduler that is about to wait for events, and workers that wait for jobs. -/
def new : Crew T Job Event :=
  { jobq := [], hands := fun _ ↦ .waiting, phase := .waiting, batch := [], dowork := true
    halting := 0, enqueued := [], taken := [], executed := [] }

/-- `enq`. -/
def enq (c : Crew T Job Event) (job : Option Job) : Crew T Job Event :=
  { c with
    jobq := c.jobq ++ [(c.enqueued.length, job)]
    enqueued := c.enqueued ++ [job] }

/-- Enqueue the work that an event is for, if there is one; `src/Scheduler.cpp:213–220`. -/
def enqWork (c : Crew T Job Event) : Option Job → Crew T Job Event
  | none => c
  | some w => c.enq (some w)

variable [DecidableEq T]

/-- One step, `src/Scheduler.cpp:136–230`. The scheduler looks at `dowork` in front of `epoll_wait`
and after every event, and forgets the events that are left when it stops. A worker puts a pill back
and retires. -/
def step (c : Crew T Job Event) : CrewAct T Job Event → Option (Crew T Job Event)
  | .report events =>
    if c.phase = .waiting ∧ c.dowork = true then some { c with phase := .handling, batch := events }
    else none
  | .handle job =>
    match c.phase, c.batch with
    | .handling, _ :: batch => some ({ c with phase := .checking, batch }.enqWork job)
    | _, _ => none
  | .check =>
    if c.phase = .checking then
      some (if c.dowork then { c with phase := .handling } else { c with phase := .waiting, batch := [] })
    else none
  | .next =>
    if c.phase = .handling ∧ c.batch.isEmpty then some { c with phase := .waiting } else none
  | .leave =>
    if c.phase = .waiting ∧ c.dowork = false then some { c with phase := .retired } else none
  | .halt => some { c with dowork := false, halting := c.halting + 1 }
  | .pill => if 0 < c.halting then some { c.enq none with halting := c.halting - 1 } else none
  | .take t =>
    match c.hands t, c.jobq with
    | .waiting, (n, job) :: jobq =>
      some { c with
        jobq, hands := Function.update c.hands t (.took n job), taken := c.taken ++ [(t, n, job)] }
    | _, _ => none
  | .putBack t =>
    match c.hands t with
    | .took _ none => some { c.enq none with hands := Function.update c.hands t .retired }
    | _ => none
  | .execute t =>
    match c.hands t with
    | .took n (some _) =>
      some { c with hands := Function.update c.hands t .waiting, executed := n :: c.executed }
    | _ => none

/-- What a step means for jobs: nothing, or one of six moves. -/
inductive Moves (c : Crew T Job Event) : CrewAct T Job Event → Crew T Job Event → Prop
  | aside {a c'} (hq : c'.jobq = c.jobq) (hh : c'.hands = c.hands)
      (hn : c'.enqueued = c.enqueued) (ht : c'.taken = c.taken) (he : c'.executed = c.executed) :
      Moves c a c'
  | handle {w batch} : Moves c (.handle (some w)) ({ c with phase := .checking, batch }.enq (some w))
  | pill : Moves c .pill { c.enq none with halting := c.halting - 1 }
  | take {t n job jobq} (hw : c.hands t = .waiting) (hq : c.jobq = (n, job) :: jobq) :
      Moves c (.take t) { c with
        jobq, hands := Function.update c.hands t (.took n job), taken := c.taken ++ [(t, n, job)] }
  | putBack {t n} (ht : c.hands t = .took n none) :
      Moves c (.putBack t) { c.enq none with hands := Function.update c.hands t .retired }
  | execute {t n w} (ht : c.hands t = .took n (some w)) : Moves c (.execute t) { c with
      hands := Function.update c.hands t .waiting, executed := n :: c.executed }

/-- Every step is one of the listed moves. -/
theorem step_moves {c c' : Crew T Job Event} {a : CrewAct T Job Event} (h : c.step a = some c') :
    Moves c a c' := by
  cases a with
  | report events | next | leave =>
    simp only [step] at h
    split at h
    · cases h
      exact .aside rfl rfl rfl rfl rfl
    · cases h
  | check =>
    simp only [step] at h
    split at h
    · cases h
      split <;> exact .aside rfl rfl rfl rfl rfl
    · cases h
  | halt =>
    cases h
    exact .aside rfl rfl rfl rfl rfl
  | handle job =>
    simp only [step] at h
    split at h
    · cases h
      cases job with
      | none => exact .aside rfl rfl rfl rfl rfl
      | some w => exact .handle
    · cases h
  | pill =>
    simp only [step] at h
    split at h
    · cases h
      exact .pill
    · cases h
  | take t =>
    simp only [step] at h
    split at h
    · next hw hq =>
      cases h
      exact .take hw hq
    · cases h
  | putBack t =>
    simp only [step] at h
    split at h
    · next ht =>
      cases h
      exact .putBack ht
    · cases h
  | execute t =>
    simp only [step] at h
    split at h
    · next ht =>
      cases h
      exact .execute ht
    · cases h

end Crew

/-- A worker other than the one that has just moved. -/
theorem Hands.of_update [DecidableEq T] {hands : T → Hands Job} {t u : T} {new h : Hands Job}
    (hu : Function.update hands t new u = h) (hne : new ≠ h) : u ≠ t ∧ hands u = h := by
  by_cases hut : u = t
  · subst hut
    rw [Function.update_self] at hu
    exact absurd hu hne
  · rw [Function.update_of_ne hut] at hu
    exact ⟨hut, hu⟩

/-- A worker that is not where the moving one was stays where it is. -/
theorem Hands.update [DecidableEq T] {hands : T → Hands Job} {t u : T} {old h : Hands Job}
    (new : Hands Job) (hu : hands u = h) (ht : hands t = old) (hne : old ≠ h) :
    Function.update hands t new u = h := by
  have hut : u ≠ t := by
    rintro rfl
    exact hne (ht.symm.trans hu)
  rw [Function.update_of_ne hut, hu]

/-- The scheduler and any number of workers. -/
def crew (T Job Event : Type) [DecidableEq T] :
    Machine (Crew T Job Event) (CrewAct T Job Event) where
  init := .new
  step := Crew.step

/-- Things with their numbers. -/
def numbered {α : Type} (l : List α) : List (Nat × α) := l.zipIdx.map Prod.swap

section numbered

variable {α : Type} (l : List α)

theorem numbered_append_singleton (x : α) :
    numbered (l ++ [x]) = numbered l ++ [(l.length, x)] := by
  simp [numbered, List.zipIdx_append]

theorem mem_numbered {n : Nat} {x : α} : (n, x) ∈ numbered l ↔ l[n]? = some x := by
  simp [numbered, List.mem_zipIdx_iff_getElem?]

private theorem map_fst_numbered : (numbered l).map Prod.fst = List.range l.length := by
  simp [numbered, Function.comp_def, List.range_eq_range']

/-- No number is given twice. -/
theorem nodup_numbered : ((numbered l).map Prod.fst).Nodup := by
  rw [map_fst_numbered]
  exact List.nodup_range

/-- What comes out first has the smaller number. -/
theorem mem_of_prefix_numbered {p : List (Nat × α)} (hp : p <+: numbered l) {m n : Nat} {x y : α}
    (hm : (m, x) ∈ p) (hn : l[n]? = some y) (hlt : n < m) : (n, y) ∈ p := by
  obtain ⟨rest, hrest⟩ := hp
  have hfst : p.map Prod.fst <+: List.range l.length := by
    rw [← map_fst_numbered, ← hrest, List.map_append]
    exact List.prefix_append _ _
  have hrange : p.map Prod.fst = List.range p.length := by
    rw [List.prefix_iff_eq_take.mp hfst, List.length_map, List.take_range, Nat.min_eq_left]
    have hlen := hfst.length_le
    rwa [List.length_map, List.length_range] at hlen
  have hmlt : m < p.length := by
    rw [← List.mem_range, ← hrange]
    exact List.mem_map_of_mem hm
  have hmem : n ∈ p.map Prod.fst := by
    rw [hrange, List.mem_range]
    exact Nat.lt_trans hlt hmlt
  obtain ⟨⟨n', z⟩, hz, rfl⟩ := List.mem_map.mp hmem
  have hzl : (n', z) ∈ numbered l := by
    rw [← hrest]
    exact List.mem_append_left _ hz
  rw [mem_numbered] at hzl
  dsimp only at hn
  rw [hn] at hzl
  cases hzl
  exact hz

end numbered

end Filth.Sched
