import Filth.Sched.Crew

/-!
# Retirement by poison pill

One null pointer in the job queue retires any number of workers: whoever takes it puts it back
before leaving. The queue is first in, first out, so a worker that has taken the pill leaves no
job in the queue that is older than the pill.
-/

namespace Filth.Sched

open Base

variable {T Job Event : Type}

/-- What a halt asks for: once `NULL` has been enqueued, a `NULL` is in the queue or with a worker
that is about to put it back; who is retired has taken one; and when all are, each job that was
enqueued before the first `NULL` has been executed, once. -/
structure Orderly (c : Crew T Job Event) : Prop where
  pill : none ∈ c.enqueued → (∃ n, (n, none) ∈ c.jobq) ∨ ∃ t n, c.hands t = .took n none
  retired : ∀ t, c.hands t = .retired → ∃ n, (t, n, none) ∈ c.taken
  executed : T → (∀ t, c.hands t = .retired) →
    ∀ n w, c.enqueued[n]? = some (some w) → (∀ m < n, c.enqueued[m]? ≠ some none) →
      c.executed.count n = 1

/-- The books on jobs. -/
structure Booked (c : Crew T Job Event) : Prop where
  fifo : c.taken.map Prod.snd ++ c.jobq = numbered c.enqueued
  held : ∀ t n job, c.hands t = .took n job → (t, n, job) ∈ c.taken ∧ n ∉ c.executed
  once : c.executed.Nodup
  past : ∀ n ∈ c.executed, ∃ t job, (t, n, job) ∈ c.taken
  done : ∀ t n w, (t, n, some w) ∈ c.taken → n ∈ c.executed ∨ c.hands t = .took n (some w)
  pill : none ∈ c.enqueued → (∃ n, (n, none) ∈ c.jobq) ∨ ∃ t n, c.hands t = .took n none
  retired : ∀ t, c.hands t = .retired → ∃ n, (t, n, none) ∈ c.taken

namespace Booked

variable {c : Crew T Job Event}

/-- A number stands for one dequeueing. -/
theorem apart (hc : Booked c) {t u : T} {n : Nat} {job job' : Option Job}
    (ht : (t, n, job) ∈ c.taken) (hu : (u, n, job') ∈ c.taken) : t = u := by
  have hnodup : (c.taken.map fun e ↦ e.2.1).Nodup := by
    have hall := nodup_numbered c.enqueued
    rw [← hc.fifo, List.map_append, List.map_map] at hall
    exact (List.nodup_append.mp hall).1
  have heq := List.inj_on_of_nodup_map hnodup ht hu rfl
  cases heq
  rfl

/-- What is in the queue has not been taken. -/
theorem not_taken (hc : Booked c) {t : T} {n : Nat} {job job' : Option Job}
    (hq : (n, job) ∈ c.jobq) : (t, n, job') ∉ c.taken := by
  intro ht
  have hall := nodup_numbered c.enqueued
  rw [← hc.fifo, List.map_append, List.map_map] at hall
  exact (List.nodup_append.mp hall).2.2 n (List.mem_map_of_mem ht) n (List.mem_map_of_mem hq) rfl

theorem new : Booked (Crew.new : Crew T Job Event) where
  fifo := rfl
  held _ _ _ h := by cases h
  once := List.nodup_nil
  past _ h := by cases h
  done _ _ _ h := by cases h
  pill h := by cases h
  retired _ h := by cases h

/-- The books are about the queue, the hands and the three records. -/
theorem aside (hc : Booked c) {c' : Crew T Job Event} (hq : c'.jobq = c.jobq)
    (hh : c'.hands = c.hands) (hn : c'.enqueued = c.enqueued) (ht : c'.taken = c.taken)
    (he : c'.executed = c.executed) : Booked c' := by
  constructor
  case fifo => rw [ht, hq, hn, hc.fifo]
  case held =>
    rw [hh, ht, he]
    exact hc.held
  case once =>
    rw [he]
    exact hc.once
  case past =>
    rw [he, ht]
    exact hc.past
  case done =>
    rw [hh, ht, he]
    exact hc.done
  case pill =>
    rw [hn, hq, hh]
    exact hc.pill
  case retired =>
    rw [hh, ht]
    exact hc.retired

/-- Enqueueing goes to the end of the queue. -/
theorem enq (hc : Booked c) (job : Option Job) : Booked (c.enq job) := by
  constructor
  case fifo =>
    change c.taken.map Prod.snd ++ (c.jobq ++ [(c.enqueued.length, job)]) =
      numbered (c.enqueued ++ [job])
    rw [← List.append_assoc, hc.fifo, numbered_append_singleton]
  case held => exact hc.held
  case once => exact hc.once
  case past => exact hc.past
  case done => exact hc.done
  case pill =>
    intro hmem
    rcases List.mem_append.mp hmem with hold | hnew
    · rcases hc.pill hold with ⟨n, hn⟩ | hheld
      · exact .inl ⟨n, List.mem_append_left _ hn⟩
      · exact .inr hheld
    · rw [List.mem_singleton] at hnew
      subst hnew
      exact .inl ⟨c.enqueued.length, List.mem_append_right _ (List.mem_singleton_self _)⟩
  case retired => exact hc.retired

variable [DecidableEq T]

/-- A worker takes what is at the front. -/
theorem take (hc : Booked c) {t : T} {n : Nat} {job : Option Job} {jobq : List (Nat × Option Job)}
    (hw : c.hands t = .waiting) (hq : c.jobq = (n, job) :: jobq) : Booked { c with
      jobq, hands := Function.update c.hands t (.took n job), taken := c.taken ++ [(t, n, job)] } := by
  have hfront : (n, job) ∈ c.jobq := by
    rw [hq]
    exact List.mem_cons_self
  have hfresh (u : T) (job' : Option Job) : (u, n, job') ∉ c.taken := hc.not_taken hfront
  have htaken {e : T × Nat × Option Job} (he : e ∈ c.taken) : e ∈ c.taken ++ [(t, n, job)] :=
    List.mem_append_left _ he
  constructor
  case fifo =>
    rw [← hc.fifo, hq]
    simp
  case held =>
    intro u m job' hu
    by_cases heq : Hands.took n job = .took m job'
    · cases heq
      have hn : n ∉ c.executed := fun hdone ↦ by
        obtain ⟨v, job', hv⟩ := hc.past n hdone
        exact hfresh v job' hv
      by_cases hut : u = t
      · subst hut
        exact ⟨by simp, hn⟩
      · have hu : c.hands u = .took n job := (Function.update_of_ne hut _ _).symm.trans hu
        exact absurd (hc.held u n job hu).1 (hfresh u job)
    · obtain ⟨-, hu⟩ := Hands.of_update hu heq
      obtain ⟨hu, hm⟩ := hc.held u m job' hu
      exact ⟨htaken hu, hm⟩
  case once => exact hc.once
  case past =>
    intro m hm
    obtain ⟨v, job', hv⟩ := hc.past m hm
    exact ⟨v, job', htaken hv⟩
  case done =>
    intro u m w hu
    rcases List.mem_append.mp hu with hold | hnew
    · rcases hc.done u m w hold with hdone | hheld
      · exact .inl hdone
      · exact .inr (Hands.update _ hheld hw nofun)
    · rw [List.mem_singleton] at hnew
      cases hnew
      exact .inr (Function.update_self _ _ _)
  case pill =>
    intro hmem
    rcases hc.pill hmem with ⟨m, hm⟩ | ⟨u, m, hu⟩
    · rw [hq] at hm
      rcases List.mem_cons.mp hm with heq | hm
      · cases heq
        exact .inr ⟨t, n, Function.update_self _ _ _⟩
      · exact .inl ⟨m, hm⟩
    · exact .inr ⟨u, m, Hands.update _ hu hw nofun⟩
  case retired =>
    intro u hu
    obtain ⟨-, hu⟩ := Hands.of_update hu nofun
    obtain ⟨m, hm⟩ := hc.retired u hu
    exact ⟨m, htaken hm⟩

/-- A worker whose pill is back in the queue retires. -/
theorem putBack (hc : Booked c) {t : T} {n : Nat} (ht : c.hands t = .took n none) :
    Booked { c.enq none with hands := Function.update c.hands t .retired } := by
  constructor
  case fifo => exact (hc.enq none).fifo
  case held =>
    intro u m job hu
    exact hc.held u m job (Hands.of_update hu nofun).2
  case once => exact hc.once
  case past => exact hc.past
  case done =>
    intro u m w hu
    rcases hc.done u m w hu with hdone | hheld
    · exact .inl hdone
    · exact .inr (Hands.update _ hheld ht nofun)
  case pill =>
    intro _
    exact .inl ⟨c.enqueued.length, List.mem_append_right _ (List.mem_singleton_self _)⟩
  case retired =>
    intro u hu
    by_cases hut : u = t
    · subst hut
      exact ⟨n, (hc.held u n none ht).1⟩
    · exact hc.retired u ((Function.update_of_ne hut _ _).symm.trans hu)

/-- A worker executes the job it has taken. -/
theorem execute (hc : Booked c) {t : T} {n : Nat} {w : Job} (ht : c.hands t = .took n (some w)) :
    Booked { c with
      hands := Function.update c.hands t .waiting, executed := n :: c.executed } := by
  obtain ⟨htaken, hfresh⟩ := hc.held t n _ ht
  constructor
  case fifo => exact hc.fifo
  case held =>
    intro u m job hu
    obtain ⟨hut, hold⟩ := Hands.of_update hu nofun
    obtain ⟨htook, hm⟩ := hc.held u m job hold
    refine ⟨htook, fun hmem ↦ ?_⟩
    rcases List.mem_cons.mp hmem with heq | hmem
    · subst heq
      exact hut (hc.apart htook htaken)
    · exact hm hmem
  case once => exact List.nodup_cons.mpr ⟨hfresh, hc.once⟩
  case past =>
    intro m hm
    rcases List.mem_cons.mp hm with rfl | hm
    · exact ⟨t, _, htaken⟩
    · exact hc.past m hm
  case done =>
    intro u m v hu
    rcases hc.done u m v hu with hdone | hheld
    · exact .inl (List.mem_cons_of_mem _ hdone)
    · by_cases heq : Hands.took n (some w) = .took m (some v)
      · cases heq
        exact .inl List.mem_cons_self
      · exact .inr (Hands.update _ hheld ht heq)
  case pill =>
    intro hmem
    rcases hc.pill hmem with hq | ⟨u, m, hu⟩
    · exact .inl hq
    · exact .inr ⟨u, m, Hands.update _ hu ht nofun⟩
  case retired =>
    intro u hu
    exact hc.retired u (Hands.of_update hu nofun).2

/-- Every step keeps the books. -/
theorem step (hc : Booked c) {c' : Crew T Job Event} {a : CrewAct T Job Event}
    (h : c.step a = some c') : Booked c' := by
  cases Crew.step_moves h with
  | aside hq hh hn ht he => exact hc.aside hq hh hn ht he
  | @handle w batch =>
    have hbatch : Booked { c with phase := .checking, batch } := hc.aside rfl rfl rfl rfl rfl
    exact hbatch.enq (some w)
  | pill => exact (hc.enq none).aside rfl rfl rfl rfl rfl
  | take hw hq => exact hc.take hw hq
  | putBack ht => exact hc.putBack ht
  | execute ht => exact hc.execute ht

omit [DecidableEq T] in
/-- Once all workers are retired, nothing that was enqueued before the first pill is left: the
worker that took a pill last had it from behind all these jobs. -/
theorem orderly (hc : Booked c) : Orderly c := by
  refine ⟨hc.pill, hc.retired, ?_⟩
  intro last hall n w hn hbefore
  obtain ⟨m, hm⟩ := hc.retired last (hall last)
  have hmem : (m, (none : Option Job)) ∈ c.taken.map Prod.snd := List.mem_map_of_mem hm
  have hprefix : c.taken.map Prod.snd <+: numbered c.enqueued := by
    rw [← hc.fifo]
    exact List.prefix_append _ _
  have hpill : c.enqueued[m]? = some none := by
    rw [← mem_numbered]
    exact hprefix.subset hmem
  have hlt : n < m := by
    rcases Nat.lt_trichotomy n m with hlt | rfl | hgt
    · exact hlt
    · rw [hn] at hpill
      cases hpill
    · exact absurd hpill (hbefore m hgt)
  obtain ⟨⟨t, n', job⟩, ht, heq⟩ :=
    List.mem_map.mp (mem_of_prefix_numbered c.enqueued hprefix hmem hn hlt)
  cases heq
  rcases hc.done t n w ht with hdone | hheld
  · exact List.count_eq_one_of_mem hc.once hdone
  · rw [hall t] at hheld
    cases hheld

end Booked

/-- Retirement is orderly, however many workers there are and whatever they, the scheduler and the
signals do. -/
theorem orderly_retirement (T Job Event : Type) [DecidableEq T]
    (as : List (CrewAct T Job Event)) : (crew T Job Event).AllStates Orderly .new as := by
  have hbooked := (crew T Job Event).allStates_of_step
    (fun _ _ _ hc h ↦ Booked.step hc h) Booked.new as
  rw [Machine.allStates_iff] at hbooked ⊢
  exact fun pre hpre c hc ↦ (hbooked pre hpre c hc).orderly

end Filth.Sched
