import Filth.Sched.Retirement
import Filth.Sched.Shutdown

/-!
# What a round leaves in the job queue

The scheduler enqueues nothing behind a poison pill. So when the main thread deletes the work map,
the job queue has only pills in it, and every job that was ever in it has been executed once.
-/

namespace Filth.Sched

open Base

variable {n : Nat} {Job : Type}

/-- Nothing but pills is enqueued behind a pill, and there is none while the scheduler works. -/
structure Crew.Sealed (c : Crew (Fin n) Job Tidings) : Prop where
  working : c.dowork = true → none ∉ c.enqueued
  last : ∀ (i j : Nat) x, i < j → c.enqueued[i]? = some none → c.enqueued[j]? = some x → x = none

/-- The pool is gone, and the queue is still there. -/
def Station.unmanned : Station → Bool
  | join | delFindwork | delScheduler | delQueue => true
  | _ => false

/-- What is true of the queue and of those who use it. -/
structure Serving.Filled (s : Serving n Job) : Prop where
  booked : Booked s.crew
  closed : s.crew.Sealed
  stopping : ∀ rest, s.sigcb = .halting rest → s.crew.dowork = false
  gone : s.stage.unmanned = true → ∀ t, (s.crew.hands t).isRetired = true

/-! ### What is enqueued -/

/-- At the end of the list stands a job only if a working scheduler has put it there. -/
theorem Crew.Sealed.concat {c c' : Crew (Fin n) Job Tidings} (h : c.Sealed) {x : Option Job}
    (hn : c'.enqueued = c.enqueued ++ [x]) (hdowork : c'.dowork = c.dowork)
    (hx : if c.dowork then x ≠ none else x = none) : c'.Sealed := by
  have hat {k : Nat} {y : Option Job} (hy : c'.enqueued[k]? = some y) :
      c.enqueued[k]? = some y ∨ k = c.enqueued.length ∧ y = x := by
    rw [hn, List.getElem?_append] at hy
    split at hy
    · exact .inl hy
    · rw [List.getElem?_singleton] at hy
      split at hy
      · exact .inr ⟨by omega, (Option.some.inj hy).symm⟩
      · cases hy
  refine ⟨fun hd ↦ ?_, fun i j y hij hi hj ↦ ?_⟩
  · rw [hdowork] at hd
    rw [if_pos hd] at hx
    rw [hn, List.mem_append, List.mem_singleton, not_or]
    exact ⟨h.working hd, Ne.symm hx⟩
  · rcases hat hj with hold | ⟨rfl, rfl⟩
    · rcases hat hi with hi | ⟨rfl, -⟩
      · exact h.last i j y hij hi hold
      · have hlt := (List.getElem?_eq_some_iff.mp hold).1
        omega
    · rcases hat hi with hi | ⟨rfl, -⟩
      · cases hd : c.dowork with
        | true => exact absurd (List.mem_of_getElem? hi) (h.working hd)
        | false => simpa [hd] using hx
      · omega

theorem Crew.Sealed.of_eq {c c' : Crew (Fin n) Job Tidings} (h : c.Sealed)
    (hn : c'.enqueued = c.enqueued) (hdowork : c'.dowork = true → c.dowork = true) : c'.Sealed := by
  refine ⟨fun hd ↦ ?_, ?_⟩
  · rw [hn]
    exact h.working (hdowork hd)
  · rw [hn]
    exact h.last

/-- A step of the scheduler or of a worker. -/
theorem Crew.Sealed.step {s : Serving n Job} (h : s.crew.Sealed) (hs : s.Sound)
    (hb : Booked s.crew) {a : CrewAct (Fin n) Job Tidings} {c : Crew (Fin n) Job Tidings}
    (ha : s.allows a = true) (hc : s.crew.step a = some c) : c.Sealed := by
  have hdowork := (Serving.crew_step ha hc).1
  cases a with
  | halt | pill => cases ha
  | handle job =>
    simp only [Crew.step] at hc
    split at hc
    · next hphase _ =>
      cases hc
      cases job with
      | none => exact h.of_eq rfl id
      | some w =>
        refine h.concat rfl rfl ?_
        split
        · exact Option.some_ne_none w
        · next hd => exact absurd hphase (hs.stopped (by simpa using hd)).1
    · cases hc
  | putBack t =>
    simp only [Crew.step] at hc
    split at hc
    · next k ht =>
      cases hc
      refine h.concat rfl rfl ?_
      split
      · next hd =>
        -- the pill that the worker has was enqueued
        have hmem : (k, (none : Option Job)) ∈ numbered s.crew.enqueued := by
          rw [← hb.fifo]
          exact List.mem_append_left _ (List.mem_map_of_mem (hb.held t k none ht).1)
        exact absurd (List.mem_of_getElem? ((mem_numbered _).mp hmem)) (h.working hd)
      · rfl
    · cases hc
  | check =>
    simp only [Crew.step] at hc
    split at hc
    · cases hc
      split
      · exact h.of_eq rfl id
      · exact h.of_eq rfl id
    · cases hc
  | report events | next | leave | take t | execute t =>
    simp only [Crew.step] at hc
    split at hc
    · cases hc
      exact h.of_eq rfl id
    · cases hc

namespace Serving

variable {cfg : ServeConfig} {s s' : Serving n Job}

private theorem filled_new (n : Nat) (Job : Type) : (new n Job).Filled where
  booked := Booked.new
  closed := ⟨fun _ ↦ List.not_mem_nil, fun i j x _ hi ↦ by simp [new, Crew.new] at hi⟩
  stopping rest hr := by cases hr
  gone hst := by cases hst

/-- The main thread gets to another place, where there are the same threads. -/
theorem Filled.pass (h : s.Filled) {alive : Resource → Bool} {handlers : Int → Option Handler}
    {st : Station} (hst : st.unmanned = true → ∀ t, (s.crew.hands t).isRetired = true) :
    ({ s with alive, handlers, stage := st } : Serving n Job).Filled :=
  ⟨h.booked, h.closed, h.stopping, hst⟩

/-- The main thread goes on. The pool lets it go when all workers have retired. -/
theorem Filled.main (h : s.Filled) (hs : s.Sound) (hstaffed : s.Staffed)
    (hstep : s.main cfg = some s') : s'.Filled := by
  have haside (hpolls : s.stage.polls = false) : s.sigcb = .aside := by
    by_contra hne
    cases hpolls.symm.trans (hs.sigcb hne).2
  have hgone := h.gone
  cases hst : s.stage with
  | test =>
    simp only [Serving.main, hst] at hstep
    cases hstep
    split <;> exact h.pass (fun hst ↦ by cases hst)
  | newQueue =>
    rw [hst] at haside
    simp only [Serving.main, hst] at hstep
    cases hstep
    refine ⟨Booked.new, ⟨fun _ ↦ List.not_mem_nil, fun i j x _ hi ↦ ?_⟩, fun rest hr ↦ ?_,
      fun hst ↦ by cases hst⟩
    · simp [Crew.new] at hi
    · cases (haside rfl).symm.trans hr
  | newFindwork | startSched =>
    simp only [Serving.main, hst] at hstep
    cases hstep
    exact h.pass (fun hst ↦ by cases hst)
  | newScheduler =>
    simp only [Serving.main, hst] at hstep
    cases hstep
    exact ⟨h.booked, h.closed, (fun rest hr ↦ by cases hr), (fun hst ↦ by cases hst)⟩
  | startup =>
    simp only [Serving.main, hst] at hstep
    cases hstep
    unfold pushSighandler
    split <;> exact h.pass (fun hst ↦ by cases hst)
  | handlers =>
    simp only [Serving.main, hst] at hstep
    cases hstep
    obtain ⟨handlers, stage, heq⟩ := foldl_pushSighandler cfg.haltsigs s
    rw [heq]
    exact ⟨h.booked, h.closed, h.stopping, fun hst ↦ by cases hst⟩
  | startPool =>
    simp only [Serving.main, hst] at hstep
    split at hstep
    · cases hstep
      exact h.pass (fun hst ↦ by cases hst)
    · cases hstep
  | endPool =>
    simp only [Serving.main, hst] at hstep
    split at hstep
    · next hout =>
      cases hstep
      refine h.pass fun _ t ↦ ?_
      have hfree : t ∉ s.pool.threads := by
        rw [hs.pool.out hout]
        exact List.not_mem_nil
      exact hstaffed.retired (by rw [hst]; rfl) t (fun hl ↦ hfree (hs.pool.listed t (.inl hl)))
        (fun hl ↦ hfree (hs.pool.listed t (.inr hl)))
    · cases hstep
  | join =>
    rw [hst] at hgone
    simp only [Serving.main, hst] at hstep
    split at hstep
    · cases hstep
      exact h.pass fun _ ↦ hgone rfl
    · cases hstep
  | delFindwork | delScheduler =>
    rw [hst] at hgone
    simp only [Serving.main, hst] at hstep
    cases hstep
    exact h.pass fun _ ↦ hgone rfl
  | delQueue | shutdown =>
    simp only [Serving.main, hst] at hstep
    cases hstep
    exact h.pass (fun hst ↦ by cases hst)
  | returned | exited =>
    simp only [Serving.main, hst] at hstep
    cases hstep

/-- All of this stays true. -/
theorem Filled.step {a : ServeAct n Job} (h : s.Filled) (hs : s.Sound) (hstaffed : s.Staffed)
    (hstep : s.step cfg a = some s') : s'.Filled := by
  cases step_moves hstep with
  | main hmain => exact h.main hs hstaffed hmain
  | pool => exact ⟨h.booked, h.closed, h.stopping, h.gone⟩
  | @crew a crew ha hc =>
    have hdowork := (crew_step ha hc).1
    refine ⟨h.booked.step hc, h.closed.step hs h.booked ha hc,
      fun rest hr ↦ hdowork.trans (h.stopping rest hr), fun hst t ↦ ?_⟩
    change (crew.hands t).isRetired = true
    rcases Crew.hands_step hc t with hsame | hown
    · rw [hsame]
      exact h.gone hst t
    · -- nobody is left who could do this
      have hst' : s.stage.unmanned = true := hst
      rcases hs.stage_of_busy (allows_worker ha hown) with hs' | hs' <;>
      · rw [hs'] at hst'
        cases hst'
  | @read l batch hb hphase =>
    have hcrew : s.crew.step (.handle none) = some { s.crew with phase := .checking, batch } := by
      simp only [Crew.step, hphase, hb]
      rfl
    exact ⟨h.booked.step hcrew, h.closed.of_eq rfl id, (fun rest hr ↦ by cases hr), h.gone⟩
  | halt | flush =>
    exact ⟨h.booked.aside rfl rfl rfl rfl rfl, h.closed.of_eq rfl (fun hd ↦ by cases hd),
      fun _ _ ↦ rfl, h.gone⟩
  | @ignore sig rest hloop =>
    obtain ⟨hdowork, -⟩ := hs.doserve_of_loop hloop
    refine ⟨h.booked, h.closed, fun rest' hr ↦ ?_, h.gone⟩
    rw [hdowork] at hr
    cases hr
  | @pill rest hhalting =>
    refine ⟨(h.booked.enq none).aside rfl rfl rfl rfl rfl, h.closed.concat rfl rfl ?_,
      (fun rest hr ↦ by cases hr), h.gone⟩
    rw [h.stopping rest hhalting]
    rfl
  | back => exact ⟨h.booked, h.closed, (fun rest hr ↦ by cases hr), h.gone⟩

end Serving

section Runs

variable {cfg : ServeConfig} {s : Serving n Job}

private theorem Serving.filled_of_reachable (h : (serving cfg n Job).Reachable s) : s.Filled := by
  have hall := Machine.invariant (serving cfg n Job)
    (P := fun s ↦ s.Sound ∧ s.Staffed ∧ s.Filled)
    ⟨Serving.sound_new n Job, Serving.staffed_new n Job, Serving.filled_new n Job⟩
    (fun _ _ _ hs hstep ↦ ⟨hs.1.step hstep, hs.2.1.step hs.1 hstep,
      hs.2.2.step hs.1 hs.2.1 hstep⟩) h
  exact hall.2.2

/-- With one worker or more, whatever signals end the round and however the threads have taken their
steps: when the work map is to be deleted, every job that has been enqueued in this round has been
executed once, and the queue has only pills in it. -/
theorem drained_of_reachable (h : (serving cfg n Job).Reachable s) (hn : 0 < n)
    (hst : s.stage = .delFindwork) :
    (∀ k w, s.crew.enqueued[k]? = some (some w) → s.crew.executed.count k = 1) ∧
      ∀ x ∈ s.crew.jobq, x.2 = none := by
  have hfilled := Serving.filled_of_reachable h
  have hretired (t : Fin n) : s.crew.hands t = .retired := by
    have ht := hfilled.gone (by rw [hst]; rfl) t
    cases hhands : s.crew.hands t with
    | retired => rfl
    | _ =>
      rw [hhands] at ht
      cases ht
  have hdone (k : Nat) (w : Job) (hk : s.crew.enqueued[k]? = some (some w)) :
      s.crew.executed.count k = 1 := by
    refine hfilled.booked.orderly.executed ⟨0, hn⟩ hretired k w hk fun m hm hpill ↦ ?_
    cases hfilled.closed.last m k (some w) hm hpill hk
  refine ⟨hdone, fun ⟨k, job⟩ hx ↦ ?_⟩
  cases job with
  | none => rfl
  | some w =>
    -- a job in the queue would have been executed, and taken before
    have hmem : (k, some w) ∈ numbered s.crew.enqueued := by
      rw [← hfilled.booked.fifo]
      exact List.mem_append_right _ hx
    have hexec := hdone k w ((mem_numbered _).mp hmem)
    obtain ⟨t, job, ht⟩ := hfilled.booked.past k (List.count_pos_iff.mp (by omega))
    exact absurd ht (hfilled.booked.not_taken hx)

theorem drained_of_reachable_oneRound : ∃ s : Serving 1 Unit,
    s.crew.enqueued = [some (), none, none] ∧
      (∀ k w, s.crew.enqueued[k]? = some (some w) → s.crew.executed.count k = 1) ∧
      ∀ x ∈ s.crew.jobq, x.2 = none :=
  ⟨_, rfl, drained_of_reachable (n := 1)
    (⟨oneRound, rfl⟩ : (serving usual 1 Unit).Reachable _) (by decide) rfl⟩

end Runs

end Filth.Sched
