import Filth.Sched.System

/-!
# Events and jobs

What each step of the scheduler and the workers does to the events that are still to be handled, to
the jobs in the queue and to those that workers have.
-/

namespace Filth.Sched

variable {T : Type}

namespace Crew

variable {Job Event : Type}

/-- The jobs in the queue, pills left out. -/
def queue (c : Crew T Job Event) : List Job := c.jobq.filterMap Prod.snd

/-- Steps that need not change anything here. -/
def Minor : CrewAct T Job Event → Prop
  | .report _ | .handle _ | .execute _ => False
  | _ => True

/-- What a step means for events and jobs. -/
inductive Shifts (c : Crew T Job Event) : CrewAct T Job Event → Crew T Job Event → Prop
  | report {events c'} (hb : c'.batch = events) (hq : c'.queue = c.queue) (hj : c'.job = c.job) :
      Shifts c (.report events) c'
  | handle {job e c'} (hb : c.batch = e :: c'.batch) (hq : c'.queue = c.queue ++ job.toList)
      (hj : c'.job = c.job) : Shifts c (.handle job) c'
  | aside {a c'} (ha : Minor a) (hb : c'.batch = c.batch ∨ c'.batch = [])
      (hq : c'.queue = c.queue) (hj : c'.job = c.job) : Shifts c a c'
  | take {t w c'} (ht : c.job t = none) (hb : c'.batch = c.batch) (hq : c.queue = w :: c'.queue)
      (hself : c'.job t = some w) (hj : ∀ u, u ≠ t → c'.job u = c.job u) : Shifts c (.take t) c'
  | execute {t c'} (hb : c'.batch = c.batch) (hq : c'.queue = c.queue)
      (hself : c'.job t = none) (hj : ∀ u, u ≠ t → c'.job u = c.job u) : Shifts c (.execute t) c'

private theorem queue_enq (c : Crew T Job Event) (job : Option Job) :
    (c.enq job).queue = c.queue ++ job.toList := by
  cases job <;> simp [queue, enq]

private theorem job_of_hands {c c' : Crew T Job Event} {u : T} (h : c'.hands u = c.hands u) :
    c'.job u = c.job u := by
  unfold job
  rw [h]

variable [DecidableEq T]

/-- Every step shifts events and jobs in one of these ways. -/
theorem step_shifts {c c' : Crew T Job Event} {a : CrewAct T Job Event} (h : c.step a = some c') :
    Shifts c a c' := by
  cases a with
  | report events =>
    simp only [step] at h
    split at h
    · cases h
      exact .report rfl rfl rfl
    · cases h
  | handle job =>
    simp only [step] at h
    split at h
    · next e batch _ hb =>
      cases h
      cases job with
      | none => exact .handle hb (by simp [enqWork, queue]) rfl
      | some w => exact .handle hb (queue_enq { c with phase := .checking, batch } (some w)) rfl
    · cases h
  | check =>
    simp only [step] at h
    split at h
    · cases h
      split
      · exact .aside trivial (.inl rfl) rfl rfl
      · exact .aside trivial (.inr rfl) rfl rfl
    · cases h
  | next | leave =>
    simp only [step] at h
    split at h
    · cases h
      exact .aside trivial (.inl rfl) rfl rfl
    · cases h
  | halt =>
    cases h
    exact .aside trivial (.inl rfl) rfl rfl
  | pill =>
    simp only [step] at h
    split at h
    · cases h
      have hq := queue_enq c none
      rw [Option.toList_none, List.append_nil] at hq
      exact .aside trivial (.inl rfl) hq rfl
    · cases h
  | take t =>
    simp only [step] at h
    split at h
    · next n job jobq hw hq =>
      cases h
      have hnone : c.job t = none := by
        unfold Crew.job
        rw [hw]
      have hself : Crew.job { c with
          jobq, hands := Function.update c.hands t (.took n job)
          taken := c.taken ++ [(t, n, job)] } t = job := by
        simp [Crew.job]
      have hother : ∀ u, u ≠ t → Crew.job { c with
          jobq, hands := Function.update c.hands t (.took n job)
          taken := c.taken ++ [(t, n, job)] } u = c.job u :=
        fun u hu ↦ job_of_hands (Function.update_of_ne hu _ _)
      cases job with
      | none =>
        refine .aside trivial (.inl rfl) (by simp [queue, hq]) (funext fun u ↦ ?_)
        by_cases hu : u = t
        · subst hu
          rw [hself, hnone]
        · exact hother u hu
      | some w => exact .take hnone rfl (by simp [queue, hq]) hself hother
    · cases h
  | putBack t =>
    simp only [step] at h
    split at h
    · next n ht =>
      cases h
      have hq := queue_enq c none
      rw [Option.toList_none, List.append_nil] at hq
      refine .aside trivial (.inl rfl) hq (funext fun u ↦ ?_)
      by_cases hu : u = t
      · subst hu
        simp [Crew.job, ht]
      · exact job_of_hands (Function.update_of_ne hu _ _)
    · cases h
  | execute t =>
    simp only [step] at h
    split at h
    · cases h
      refine .execute rfl rfl (by simp [Crew.job]) fun u hu ↦ ?_
      exact job_of_hands (Function.update_of_ne hu _ _)
    · cases h

/-- Events are left only while they are being handled. -/
def Tidy (c : Crew T Job Event) : Prop :=
  c.phase = .waiting ∨ c.phase = .retired → c.batch = []

theorem Tidy.step {c c' : Crew T Job Event} {a : CrewAct T Job Event} (h : c.Tidy)
    (hstep : c.step a = some c') : c'.Tidy := by
  cases a with
  | report events =>
    simp only [Crew.step] at hstep
    split at hstep
    · cases hstep
      rintro (hp | hp) <;> cases hp
    · cases hstep
  | handle job =>
    simp only [Crew.step] at hstep
    split at hstep
    · cases hstep
      cases job <;> rintro (hp | hp) <;> cases hp
    · cases hstep
  | check =>
    simp only [Crew.step] at hstep
    split at hstep
    · cases hstep
      split
      · rintro (hp | hp) <;> cases hp
      · exact fun _ ↦ rfl
    · cases hstep
  | next =>
    simp only [Crew.step] at hstep
    split at hstep
    · next hboth =>
      cases hstep
      exact fun _ ↦ List.isEmpty_iff.mp hboth.2
    · cases hstep
  | leave =>
    simp only [Crew.step] at hstep
    split at hstep
    · next hboth =>
      cases hstep
      exact fun _ ↦ h (.inl hboth.1)
    · cases hstep
  | halt =>
    cases hstep
    exact h
  | pill | take t | putBack t | execute t =>
    simp only [Crew.step] at hstep
    split at hstep
    · cases hstep
      exact h
    · cases hstep

end Crew

end Filth.Sched
