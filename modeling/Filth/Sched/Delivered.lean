import Filth.Sched.Staff
import Mathlib.Data.List.Perm.Subperm

/-!
# What becomes of jobs on the lock-free queue

The job queue is a lock-free one. The scheduler and the workers around it are seen to do what a
crew does, so what is known of crews is true of them: no job is executed more often than events
have been for it, and none is lost that was enqueued before a halt.
-/

namespace Filth.Sched

open Base

variable {T Job Event : Type} [DecidableEq T]

/-- The scheduler and the workers around a lock-free queue. -/
def staffedQueue (T Event : Type) {Job : Type} [DecidableEq T] [DecidableEq Job]
    (junk : Option Job) :
    Machine (LockFree.Queue (Caller T) (Option Job) × Staff T Job Event)
      (LockFree.QueueAct (Caller T) (Option Job) ⊕ StaffAct T Job Event) :=
  (LockFree.lockFreeQueue (Caller T) junk).usedBy LockFree.Queue.see (staff T Job Event)

/-! ### What is known of crews -/

section Crew

variable {c c' : Crew T Job Event} {as : List (CrewAct T Job Event)}

/-- Pills come from calls of `halt`, and from workers that have taken one. -/
private theorem no_pill_step (hc : Booked c)
    (hclear : c.dowork = true → c.halting = 0 ∧ none ∉ c.enqueued)
    {a : CrewAct T Job Event} (hstep : c.step a = some c') (hd : c'.dowork = true) :
    c'.halting = 0 ∧ none ∉ c'.enqueued := by
  cases a with
  | report events | next | leave =>
    rw [Crew.step] at hstep
    split at hstep
    case isFalse => cases hstep
    case isTrue =>
      cases hstep
      exact hclear hd
  | check =>
    rw [Crew.step] at hstep
    split at hstep
    case isFalse => cases hstep
    case isTrue =>
      cases hstep
      split at hd
      case isTrue hdowork =>
        rw [if_pos hdowork]
        exact hclear hdowork
      case isFalse hdowork => exact absurd hd hdowork
  | handle job =>
    rw [Crew.step] at hstep
    split at hstep
    case h_2 => cases hstep
    case h_1 =>
      cases hstep
      cases job with
      | none => exact hclear hd
      | some w =>
        obtain ⟨hhalting, hnone⟩ := hclear hd
        exact ⟨hhalting, by simpa [Crew.enqWork, Crew.enq] using hnone⟩
  | halt =>
    cases hstep
    cases hd
  | pill =>
    rw [Crew.step] at hstep
    split at hstep
    case isFalse => cases hstep
    case isTrue hpos =>
      cases hstep
      have hzero := (hclear hd).1
      omega
  | take t =>
    rw [Crew.step] at hstep
    split at hstep
    case h_2 => cases hstep
    case h_1 =>
      cases hstep
      exact hclear hd
  | putBack t =>
    rw [Crew.step] at hstep
    split at hstep
    case h_2 => cases hstep
    case h_1 n hhands =>
      cases hstep
      have hmem : (n, none) ∈ numbered c.enqueued := by
        rw [← hc.fifo]
        exact List.mem_append_left _ (List.mem_map_of_mem (hc.held t n none hhands).1)
      exact absurd (List.mem_of_getElem? ((mem_numbered _).mp hmem)) (hclear hd).2
  | execute t =>
    rw [Crew.step] at hstep
    split at hstep
    case h_2 => cases hstep
    case h_1 =>
      cases hstep
      exact hclear hd

/-- While nobody has called `halt`, there are none. -/
private theorem no_pill_of_dowork (h : (crew T Job Event).Reachable c) (hdowork : c.dowork = true) :
    none ∉ c.enqueued := by
  have hall : Booked c ∧ (c.dowork = true → c.halting = 0 ∧ none ∉ c.enqueued) := by
    refine Machine.invariant _ (P := fun c ↦ Booked c ∧
      (c.dowork = true → c.halting = 0 ∧ none ∉ c.enqueued)) ?_ ?_ h
    · exact ⟨.new, fun _ ↦ ⟨rfl, by simp [crew, Crew.new]⟩⟩
    · rintro c a c' ⟨hc, hclear⟩ hstep
      exact ⟨hc.step hstep, no_pill_step hc hclear hstep⟩
  exact (hall.2 hdowork).2

/-- What has been enqueued stays so. -/
private theorem enqueued_grows (h : (crew T Job Event).run c as = some c') :
    c.enqueued <+: c'.enqueued := by
  refine Machine.AllStates.last _ (P := fun c' ↦ c.enqueued <+: c'.enqueued)
    ((crew T Job Event).allStates_of_step ?_ List.prefix_rfl as) h
  intro c₁ a c₂ hpre hstep
  refine hpre.trans ?_
  cases Crew.step_moves hstep with
  | aside _ _ hn => rw [hn]
  | take | execute => exact List.prefix_rfl
  | handle | pill | putBack => exact List.prefix_append _ _

/-- The jobs with these numbers. -/
def Crew.jobsAt (c : Crew T Job Event) (l : List Nat) : List Job :=
  (l.map fun n ↦ c.enqueued[n]?).filterMap Option.join

omit [DecidableEq T] in
private theorem Crew.jobsAt_range {l : List (Option Job)} (h : l <+: c.enqueued) :
    c.jobsAt (List.range l.length) = l.reduceOption := by
  have hall : (List.range l.length).map (fun n ↦ c.enqueued[n]?) = l.map some := by
    refine List.ext_getElem (by simp) fun i hi hi' ↦ ?_
    have hlt : i < l.length := by simpa using hi'
    rw [List.getElem_map, List.getElem_map, List.getElem_range]
    exact List.prefix_iff_getElem?.mp h i hlt
  rw [jobsAt, hall, List.filterMap_map]
  rfl

omit [DecidableEq T] in
private theorem Crew.jobsAt_subperm (c : Crew T Job Event) {l l' : List Nat} (h : l.Subperm l') :
    (c.jobsAt l).Subperm (c.jobsAt l') := by
  obtain ⟨m, hm, hsub⟩ := h
  exact ⟨_, (hm.map _).filterMap _, (hsub.map _).filterMap _⟩

omit [DecidableEq T] in
/-- When all workers have retired, the jobs that were enqueued before any pill have been
executed. -/
theorem jobsAt_of_retired (h : Booked c) [Nonempty T] (hall : ∀ t, c.hands t = .retired)
    {l : List (Option Job)} (hl : l <+: c.enqueued) (hnone : none ∉ l) :
    l.reduceOption.Subperm (c.jobsAt c.executed) := by
  rw [← Crew.jobsAt_range hl]
  refine c.jobsAt_subperm (List.nodup_range.subperm fun n hn ↦ ?_)
  have hat (m : Nat) (hm : m < l.length) : c.enqueued[m]? = some l[m] :=
    List.prefix_iff_getElem?.mp hl m hm
  have hjob (m : Nat) (hm : m < l.length) : l[m] ≠ none := fun heq ↦
    hnone (heq ▸ List.getElem_mem hm)
  have hlt := List.mem_range.mp hn
  obtain ⟨w, hw⟩ := Option.ne_none_iff_exists'.mp (hjob n hlt)
  obtain ⟨t⟩ := ‹Nonempty T›
  have hcount : c.executed.count n = 1 := by
    refine h.orderly.executed t hall n w ((hat n hlt).trans (congrArg some hw)) fun m hm hpill ↦ ?_
    rw [hat m (hm.trans hlt)] at hpill
    exact hjob m (hm.trans hlt) (Option.some.inj hpill)
  exact List.one_le_count_iff.mp hcount.ge

end Crew

section Staff

variable {q : ConcurrentQueue (Caller T) (Option Job)} {k : Staff T Job Event}
  {c : Crew T Job Event}

omit [DecidableEq T] in
/-- What the workers have executed is what the crew has. -/
theorem Agrees.executed_eq (h : Agrees q k c) : k.executed = c.jobsAt c.executed := by
  rw [Crew.jobsAt, h.executed, List.filterMap_map]
  exact (List.filterMap_some).symm

omit [DecidableEq T] in
/-- Each is a job that an event has been for, and none is executed twice for one event. -/
private theorem Agrees.executed_subperm (h : Agrees q k c) : k.executed.Subperm k.handled := by
  have hrange : c.executed.Subperm (List.range c.enqueued.length) :=
    h.booked.once.subperm fun n hn ↦ List.mem_range.mpr (h.booked.lt_of_executed hn)
  have hjobs : k.executed.Subperm c.enqueued.reduceOption := by
    rw [h.executed_eq, ← Crew.jobsAt_range List.prefix_rfl]
    exact c.jobsAt_subperm hrange
  obtain ⟨o, -, hahead⟩ := h.poll
  cases hahead with
  | level _ _ hhandled => rwa [hhandled]
  | one _ _ _ hhandled =>
    rw [hhandled]
    exact hjobs.trans (List.sublist_append_left _ _).subperm

end Staff

/-! ### And so of the scheduler and its workers -/

section Jobs

variable [DecidableEq Job] {junk : Option Job}

/-- The same staff at a queue for which the lock-free one may stand. -/
def SameStaff (p : LockFree.Queue (Caller T) (Option Job) × Staff T Job Event)
    (q : ConcurrentQueue (Caller T) (Option Job) × Staff T Job Event) : Prop :=
  p.1.Stands q.1 ∧ p.2 = q.2

omit [DecidableEq T] [DecidableEq Job] in
private theorem sameStaff_view (s : LockFree.Queue (Caller T) (Option Job))
    (k : Staff T Job Event) :
    SameStaff (s, k) (s.view, k) := ⟨s.stands_view, rfl⟩

/-- Nobody who uses the job queue can tell that it is a lock-free one. -/
theorem implements_staffed (T Event : Type) [DecidableEq T] (junk : Option Job) :
    Machine.Implements (staffedQueue T Event junk)
      ((concurrentQueue (Caller T) (Option Job)).usedBy ConcurrentQueue.see (staff T Job Event))
      (Machine.seeClient Staff.see) (Machine.seeClient Staff.see) SameStaff :=
  (LockFree.implements (Caller T) junk).usedBy (staff T Job Event) Staff.see

/-- For any number of workers, any calls of `halt` and any interleaving, with single steps of the
lock-free queue: what can be seen of the scheduler and the workers is what can be seen of a run of a
crew, which has in its queue what the lock-free queue contains, and where those have jobs who have
one here and those have retired who have retired here. -/
theorem refines_crew (T Event : Type) [DecidableEq T] (junk : Option Job)
    (as : List (LockFree.QueueAct (Caller T) (Option Job) ⊕ StaffAct T Job Event))
    (s : LockFree.Queue (Caller T) (Option Job)) (k : Staff T Job Event)
    (hrun : (staffedQueue T Event junk).run (.new junk, .new) as = some (s, k)) :
    ∃ bs c, (crew T Job Event).run .new bs = some c ∧
      (crew T Job Event).history Crew.see .new bs =
        (staffedQueue T Event junk).history (Machine.seeClient Staff.see) (.new junk, .new) as ∧
      c.jobq.map Prod.snd = s.contents ∧ c.dowork = k.dowork ∧
      (∀ t, k.place (.worker t) = .retired → c.hands t = .retired) ∧
      ∀ t w, k.place (.worker t) = .holding w → ∃ n, c.hands t = .took n (some w) := by
  obtain ⟨as', has', hsame⟩ := (implements_staffed T Event junk).shows hrun (sameStaff_view s k)
  obtain ⟨c, hc, bs, hbs, hseen⟩ := (simulates T Job Event).shows (simulates T Job Event).init has'
  refine ⟨bs, c, hbs, hseen.trans hsame, hc.jobq, hc.dowork, fun t ht ↦ ?_, fun t w ht ↦ ?_⟩
  · exact hc.hands_of_retired ht
  · exact hc.hands_of_holding ht

/-- Single steps of a caller in a call of the lock-free queue. -/
def going (d : Caller Unit) (n : Nat) :
    List (LockFree.QueueAct (Caller Unit) (Option Nat) ⊕ StaffAct Unit Nat Unit) :=
  List.replicate n (.inl (.go d))

/-- An event is for the job 7, which is enqueued. -/
def handed : List (LockFree.QueueAct (Caller Unit) (Option Nat) ⊕ StaffAct Unit Nat Unit) :=
  [.inr (.report [()]), .inr (.handle (some 7)), .inl (.enq .poll (some 7))] ++ going .poll 6 ++
    [.inr .check]

/-- The one worker executes it, the scheduler is halted, and both retire. -/
def halted : List (LockFree.QueueAct (Caller Unit) (Option Nat) ⊕ StaffAct Unit Nat Unit) :=
  .inl (.deq (.worker ()) true) :: going (.worker ()) 9 ++
    [.inr (.execute ()), .inr (.halt 0), .inl (.enq (.halt 0) none)] ++ going (.halt 0) 6 ++
    [.inr .next, .inr .leave, .inl (.deq (.worker ()) true)] ++ going (.worker ()) 9 ++
    .inl (.enq (.worker ()) none) :: going (.worker ()) 6

theorem refines_crew_halted : ∃ bs c, (crew Unit Nat Unit).run .new bs = some c ∧
    (crew Unit Nat Unit).history Crew.see .new bs =
      [.report [()], .execute () 7, .halt, .leave] ∧ c.hands () = .retired := by
  have hend : ((staffedQueue Unit Unit none).run (.new none, .new) (handed ++ halted)).map
      (fun p ↦ p.2.place (.worker ())) = some .retired := by decide +kernel
  obtain ⟨⟨s, k⟩, hrun, hretired⟩ := Option.map_eq_some_iff.mp hend
  have hseen : (staffedQueue Unit Unit none).history (Machine.seeClient Staff.see) (.new none, .new)
      (handed ++ halted) = [.report [()], .execute () 7, .halt, .leave] := by decide +kernel
  obtain ⟨bs, c, hbs, hsame, -, -, hhands, -⟩ :=
    refines_crew Unit Unit none (handed ++ halted) s k hrun
  exact ⟨bs, c, hbs, hsame.trans hseen, hhands () hretired⟩

/-- No job is executed more often than events have been for it. And if at some moment no call of
`halt` had begun and the scheduler was in no call of `enq`, then once all workers have retired, each
job that an event had been for at that moment has been executed as often as that. -/
theorem jobs_delivered (T Event : Type) [DecidableEq T] [Nonempty T] (junk : Option Job)
    (as bs : List (LockFree.QueueAct (Caller T) (Option Job) ⊕ StaffAct T Job Event))
    (s s' : LockFree.Queue (Caller T) (Option Job)) (k k' : Staff T Job Event)
    (hrun : (staffedQueue T Event junk).run (.new junk, .new) as = some (s, k))
    (hrest : (staffedQueue T Event junk).run (s, k) bs = some (s', k')) :
    k'.executed.Subperm k'.handled ∧
      (k.dowork = true → k.place .poll = .free → (∀ t, k'.place (.worker t) = .retired) →
        k.handled.Subperm k'.executed) := by
  have himpl := implements_staffed T Event junk
  obtain ⟨⟨q, _⟩, hsame, bs', hbs', -⟩ :=
    himpl.shows_between ⟨as, hrun⟩ hrest (sameStaff_view s' k')
  obtain ⟨as', has', -⟩ := himpl.shows hrun hsame
  obtain ⟨-, rfl⟩ := hsame
  obtain ⟨c, hc, cs, hcs, -⟩ := (simulates T Job Event).shows (simulates T Job Event).init has'
  obtain ⟨c', hc', ds, hds, -⟩ := (simulates T Job Event).shows hc hbs'
  refine ⟨hc'.executed_subperm, fun hdowork hfree hall ↦ ?_⟩
  have hnone : none ∉ c.enqueued := no_pill_of_dowork ⟨cs, hcs⟩ (hc.dowork.trans hdowork)
  rw [(hc.level hfree).2.2.2, hc'.executed_eq]
  exact jobsAt_of_retired hc'.booked (fun t ↦ hc'.hands_of_retired (hall t)) (enqueued_grows hds)
    hnone

theorem jobs_delivered_halted : ∃ s k, (staffedQueue Unit Unit none).run (.new none, .new)
    (handed ++ halted) = some (s, k) ∧ [7].Subperm k.executed := by
  have hstart : ((staffedQueue Unit Unit none).run (.new none, .new) handed).map
      (fun p ↦ (p.2.dowork, p.2.place .poll, p.2.handled)) = some (true, .free, [7]) := by
    decide +kernel
  have hend : ((staffedQueue Unit Unit none).run (.new none, .new) (handed ++ halted)).map
      (fun p ↦ p.2.place (.worker ())) = some .retired := by decide +kernel
  obtain ⟨⟨s, k⟩, hrun, hk⟩ := Option.map_eq_some_iff.mp hstart
  obtain ⟨⟨s', k'⟩, hall, hretired⟩ := Option.map_eq_some_iff.mp hend
  obtain ⟨hdowork, hplace⟩ := Prod.mk.inj hk
  obtain ⟨hfree, hhandled⟩ := Prod.mk.inj hplace
  have hrest : (staffedQueue Unit Unit none).run (s, k) halted = some (s', k') := by
    rwa [Machine.run_append, hrun, Option.bind_some] at hall
  obtain ⟨-, hdelivered⟩ := jobs_delivered Unit Unit none handed halted s s' k k' hrun hrest
  rw [hhandled] at hdelivered
  exact ⟨s', k', hall, hdelivered hdowork hfree fun _ ↦ hretired⟩

end Jobs

end Filth.Sched
