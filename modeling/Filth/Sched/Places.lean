import Filth.Sched.Shifts
import Filth.Sched.WorkMap

/-!
# Where works are

A connection that epoll knows has one work, which is in the map, and which is in one place:
watched by epoll, about to be handled, in the job queue, or with a worker. This is as the comment in
`Scheduler::poll`, `src/Scheduler.cpp:179–190`, has it; here is what each operation does to it.
-/

namespace Filth.Sched

open Base

variable {T : Type}

namespace Sys

/-- The connections with an event that is still to be handled. -/
def pending (s : Sys T) : List Fd := s.crew.batch.filterMap Event.conn

/-- There is a work at the address, and it has not been deleted. -/
def Alive (s : Sys T) (a : Addr) : Prop := ∃ w, s.works[a]? = some w ∧ w.deleted = false

/-- The invariant of the scheduler, and that no pointer to a deleted work is in the job queue, with
a worker, or found for a descriptor that epoll watches. -/
structure Owned (s : Sys T) : Prop where
  pending : ∀ fd ∈ s.pending, ∀ a w, s.works[a]? = some w → w.fd = fd →
    a ∉ s.crew.queue ∧ ∀ t, s.crew.job t ≠ some a
  queue : ∀ a ∈ s.crew.queue, s.Alive a
  hands : ∀ t a, s.crew.job t = some a → s.Alive a
  armed : ∀ fd m a, s.fds fd = .armed m → s.wmap.lookup fd = some a → s.Alive a

/-- Works that have not been deleted are those in the map whose descriptors epoll knows. -/
structure Registered (s : Sys T) : Prop where
  pairs : ∀ fd a, s.wmap.lookup fd = some a → ∃ w, s.works[a]? = some w ∧ w.fd = fd
  live : ∀ a fd, s.Serves a fd →
    s.fds fd ≠ .closed ∧ s.fds fd ≠ .unwatched ∧ s.wmap.lookup fd = some a
  known : ∀ fd, s.fds fd ≠ .closed → s.fds fd ≠ .unwatched → ∃ a, s.Serves a fd

/-- A work that is queued or that a worker is about to execute is not watched, and each is in one
place. -/
structure Placed (s : Sys T) : Prop where
  queue : ∀ a ∈ s.crew.queue, ∃ fd, s.Serves a fd ∧ fd ∉ s.pending ∧ s.fds fd = .disarmed
  once : s.crew.queue.Nodup
  hands : ∀ t a, s.crew.job t = some a → a ∉ s.crew.queue ∧ ∃ fd, s.Serves a fd ∧ fd ∉ s.pending ∧
    (s.stage t = .outside ∨ s.stage t = .inside → s.fds fd = .disarmed)
  alone : ∀ t u a, s.crew.job t = some a → s.crew.job u = some a → t = u
  stage : ∀ t, s.stage t ≠ .delivered ∧ (s.crew.job t = none → s.stage t = .outside)
  pending : ∀ fd ∈ s.pending, s.fds fd = .disarmed
  nodup : s.pending.Nodup

variable {s s' : Sys T} {a b : Addr} {fd fd' : Fd} {w : Work} {t : T}

theorem Serves.alive (h : s.Serves a fd) : s.Alive a := by
  obtain ⟨w, hw, halive, -⟩ := h
  exact ⟨w, hw, halive⟩

theorem Alive.serves (h : s.Alive a) : ∃ fd, s.Serves a fd := by
  obtain ⟨w, hw, halive⟩ := h
  exact ⟨w.fd, w, hw, halive, rfl⟩

theorem Serves.fd_unique (h : s.Serves a fd) (hw : s.works[a]? = some w) : w.fd = fd := by
  obtain ⟨v, hv, -, hfd⟩ := h
  cases hv.symm.trans hw
  exact hfd

/-- The two invariants give what is wanted. -/
theorem owned_of_placed (hr : s.Registered) (hp : s.Placed) : s.Owned := by
  refine ⟨fun fd hfd a w hw hwfd ↦ ⟨fun ha ↦ ?_, fun t ht ↦ ?_⟩, fun a ha ↦ ?_, fun t a ht ↦ ?_,
    fun fd m a hm ha ↦ ?_⟩
  · obtain ⟨fd', hserves, hnot, -⟩ := hp.queue a ha
    rw [← hserves.fd_unique hw, hwfd] at hnot
    exact hnot hfd
  · obtain ⟨-, fd', hserves, hnot, -⟩ := hp.hands t a ht
    rw [← hserves.fd_unique hw, hwfd] at hnot
    exact hnot hfd
  · obtain ⟨fd, hserves, -⟩ := hp.queue a ha
    exact hserves.alive
  · obtain ⟨-, fd, hserves, -⟩ := hp.hands t a ht
    exact hserves.alive
  · obtain ⟨b, hb⟩ := hr.known fd (by simp [hm]) (by simp [hm])
    obtain ⟨-, -, hlookup⟩ := hr.live b fd hb
    cases ha.symm.trans hlookup
    exact hb.alive

/-- A closed descriptor has no work, and if there is still a pair of it, it is that of a deleted work. -/
theorem Registered.not_alive (h : s.Registered) (hfd : s.fds fd = .closed)
    (ha : s.wmap.lookup fd = some a) : ¬ s.Alive a := by
  rintro ⟨w, hw, halive⟩
  obtain ⟨v, hv, hvfd⟩ := h.pairs fd a ha
  cases hw.symm.trans hv
  exact (h.live a fd ⟨w, hw, halive, hvfd⟩).1 hfd

/-- No two works have a descriptor in common. -/
theorem Registered.unique (h : s.Registered) (ha : s.Serves a fd) (hb : s.Serves b fd) : a = b :=
  Option.some.inj ((h.live a fd ha).2.2.symm.trans (h.live b fd hb).2.2)

/-- The places do not change if works, their descriptors and the crew do not. -/
theorem Placed.frame (h : s.Placed) (hcrew : s'.crew = s.crew) (hstage : s'.stage = s.stage)
    (hserves : ∀ a fd, s.Serves a fd → s'.Serves a fd)
    (hfds : ∀ fd, s.fds fd = .disarmed → s'.fds fd = .disarmed) : s'.Placed := by
  have hpending : s'.pending = s.pending := by rw [Sys.pending, hcrew]; rfl
  refine ⟨fun a ha ↦ ?_, ?_, fun t a ht ↦ ?_, fun t u a ↦ ?_, fun t ↦ ?_, fun fd hfd ↦ ?_, ?_⟩
  · rw [hcrew] at ha
    obtain ⟨fd, hs, hnot, hdis⟩ := h.queue a ha
    exact ⟨fd, hserves a fd hs, hpending ▸ hnot, hfds fd hdis⟩
  · rw [hcrew]
    exact h.once
  · rw [hcrew] at ht
    obtain ⟨hqueue, fd, hs, hnot, hdis⟩ := h.hands t a ht
    rw [hcrew, hstage]
    exact ⟨hqueue, fd, hserves a fd hs, hpending ▸ hnot, fun hst ↦ hfds fd (hdis hst)⟩
  · rw [hcrew]
    exact h.alone t u a
  · rw [hcrew, hstage]
    exact h.stage t
  · rw [hpending] at hfd
    exact hfds fd (h.pending fd hfd)
  · rw [hpending]
    exact h.nodup

/-! ### Steps of the crew -/

section Crew

variable {crew : Crew T Addr Event}

/-- Events are handled or forgotten, and nothing else happens. -/
theorem Placed.still (h : s.Placed) (hb : crew.batch.Sublist s.crew.batch)
    (hq : crew.queue = s.crew.queue) (hj : crew.job = s.crew.job) :
    ({ s with crew } : Sys T).Placed := by
  have hsub : ({ s with crew } : Sys T).pending.Sublist s.pending := hb.filterMap _
  refine ⟨fun a ha ↦ ?_, ?_, fun t a ht ↦ ?_, fun t u a ht hu ↦ ?_, fun t ↦ ?_, fun fd hfd ↦ ?_,
    h.nodup.sublist hsub⟩
  · rw [show ({ s with crew } : Sys T).crew.queue = s.crew.queue from hq] at ha
    obtain ⟨fd, hs, hnot, hdis⟩ := h.queue a ha
    exact ⟨fd, hs, fun hmem ↦ hnot (hsub.subset hmem), hdis⟩
  · dsimp only
    rw [hq]
    exact h.once
  · dsimp only at ht ⊢
    rw [hj] at ht
    rw [hq]
    obtain ⟨hqueue, fd, hs, hnot, hdis⟩ := h.hands t a ht
    exact ⟨hqueue, fd, hs, fun hmem ↦ hnot (hsub.subset hmem), hdis⟩
  · dsimp only at ht hu
    rw [hj] at ht hu
    exact h.alone t u a ht hu
  · dsimp only
    rw [hj]
    exact h.stage t
  · exact h.pending fd (hsub.subset hfd)

/-- Connections are reported that no worker has. -/
theorem Placed.report (h : s.Placed) {events : List Event} (hr : s.Reports events)
    (hb : crew.batch = events) (hq : crew.queue = s.crew.queue) (hj : crew.job = s.crew.job)
    (hfree : ∀ t a w, s.crew.job t = some a → s.works[a]? = some w →
      w.fd ∉ events.filterMap Event.conn) : ({ s.disarm events with crew } : Sys T).Placed := by
  have hpending : ({ s.disarm events with crew } : Sys T).pending = events.filterMap Event.conn := by
    rw [← hb]
    rfl
  have hfds {fd : Fd} (hfd : s.fds fd = .disarmed) : fd ∉ events.filterMap Event.conn := by
    intro hmem
    rcases hr.2 fd hmem with harmed | harmed <;> cases hfd.symm.trans harmed
  have hdisarm {fd : Fd} (hfd : s.fds fd = .disarmed) : (s.disarm events).fds fd = .disarmed := by
    dsimp only [disarm]
    rw [if_neg (hfds hfd)]
    exact hfd
  refine ⟨fun a ha ↦ ?_, ?_, fun t a ht ↦ ?_, fun t u a ht hu ↦ ?_, fun t ↦ ?_, fun fd hfd ↦ ?_,
    ?_⟩
  · rw [show ({ s.disarm events with crew } : Sys T).crew.queue = s.crew.queue from hq] at ha
    obtain ⟨fd, hs, hnot, hdis⟩ := h.queue a ha
    exact ⟨fd, hs, hpending ▸ hfds hdis, hdisarm hdis⟩
  · dsimp only
    rw [hq]
    exact h.once
  · dsimp only at ht ⊢
    rw [hj] at ht
    rw [hq]
    obtain ⟨hqueue, fd, hs, hnot, hdis⟩ := h.hands t a ht
    obtain ⟨w, hw, halive, rfl⟩ := hs
    exact ⟨hqueue, w.fd, ⟨w, hw, halive, rfl⟩, hpending ▸ hfree t a w ht hw,
      fun hst ↦ hdisarm (hdis hst)⟩
  · dsimp only at ht hu
    rw [hj] at ht hu
    exact h.alone t u a ht hu
  · dsimp only
    rw [hj]
    exact h.stage t
  · rw [hpending] at hfd
    exact if_pos hfd
  · rw [hpending]
    exact hr.1

/-- The work for an event is enqueued. -/
theorem Placed.ready (h : s.Placed) (hr : s.Registered) (hbatch : s.crew.batch = .ready fd :: crew.batch)
    (ha : s.Serves a fd) (hq : crew.queue = s.crew.queue ++ [a]) (hj : crew.job = s.crew.job) :
    ({ s with crew } : Sys T).Placed := by
  have hpending : s.pending = fd :: ({ s with crew } : Sys T).pending := by
    rw [Sys.pending, hbatch]
    rfl
  have hnodup := h.nodup
  rw [hpending, List.nodup_cons] at hnodup
  have hdis : s.fds fd = .disarmed := h.pending fd (by rw [hpending]; exact List.mem_cons_self)
  have hfree : a ∉ s.crew.queue ∧ ∀ t, s.crew.job t ≠ some a := by
    obtain ⟨w, hw, halive, rfl⟩ := ha
    exact (owned_of_placed hr h).pending w.fd (by rw [hpending]; exact List.mem_cons_self) a w hw
      rfl
  have hless {fd' : Fd} (hnot : fd' ∉ s.pending) : fd' ∉ ({ s with crew } : Sys T).pending := by
    rw [hpending] at hnot
    exact fun hmem ↦ hnot (List.mem_cons_of_mem fd hmem)
  refine ⟨fun b hb ↦ ?_, ?_, fun t b ht ↦ ?_, fun t u b ht hu ↦ ?_, fun t ↦ ?_, fun fd' hfd ↦ ?_,
    hnodup.2⟩
  · rw [show ({ s with crew } : Sys T).crew.queue = s.crew.queue ++ [a] from hq, List.mem_append,
      List.mem_singleton] at hb
    rcases hb with hb | rfl
    · obtain ⟨fd', hs, hnot, hdis'⟩ := h.queue b hb
      exact ⟨fd', hs, hless hnot, hdis'⟩
    · exact ⟨fd, ha, hnodup.1, hdis⟩
  · dsimp only
    rw [hq]
    exact h.once.append (List.nodup_singleton a) (by simpa using hfree.1)
  · dsimp only at ht ⊢
    rw [hj] at ht
    obtain ⟨hqueue, fd', hs, hnot, hdis'⟩ := h.hands t b ht
    refine ⟨?_, fd', hs, hless hnot, hdis'⟩
    rw [hq, List.mem_append, List.mem_singleton, not_or]
    refine ⟨hqueue, ?_⟩
    rintro rfl
    exact hfree.2 t ht
  · dsimp only at ht hu
    rw [hj] at ht hu
    exact h.alone t u b ht hu
  · dsimp only
    rw [hj]
    exact h.stage t
  · apply h.pending
    rw [hpending]
    exact List.mem_cons_of_mem fd hfd

/-- A worker takes a work. -/
theorem Placed.take (h : s.Placed) (ht : s.crew.job t = none) (hb : crew.batch = s.crew.batch)
    (hq : s.crew.queue = a :: crew.queue) (hself : crew.job t = some a)
    (hj : ∀ u, u ≠ t → crew.job u = s.crew.job u) : ({ s with crew } : Sys T).Placed := by
  have hpending : ({ s with crew } : Sys T).pending = s.pending := by
    dsimp only [Sys.pending]
    rw [hb]
  have honce := h.once
  rw [hq, List.nodup_cons] at honce
  have hmem {b : Addr} (hb : b ∈ crew.queue) : b ∈ s.crew.queue := by
    rw [hq]
    exact List.mem_cons_of_mem a hb
  have hcases {u : T} {b : Addr} (hu : crew.job u = some b) :
      u = t ∧ b = a ∨ u ≠ t ∧ s.crew.job u = some b := by
    by_cases hut : u = t
    · subst hut
      exact .inl ⟨rfl, Option.some.inj (hu.symm.trans hself)⟩
    · exact .inr ⟨hut, (hj u hut).symm.trans hu⟩
  have hhead : a ∈ s.crew.queue := by
    rw [hq]
    exact List.mem_cons_self
  refine ⟨fun b hb ↦ ?_, honce.2, fun u b hu ↦ ?_, fun u u' b hu hu' ↦ ?_, fun u ↦ ?_, ?_, ?_⟩
  · obtain ⟨fd, hs, hnot, hdis⟩ := h.queue b (hmem hb)
    exact ⟨fd, hs, hpending ▸ hnot, hdis⟩
  · rcases hcases hu with ⟨rfl, rfl⟩ | ⟨-, hold⟩
    · obtain ⟨fd, hs, hnot, hdis⟩ := h.queue b hhead
      exact ⟨honce.1, fd, hs, hpending ▸ hnot, fun _ ↦ hdis⟩
    · obtain ⟨hqueue, fd, hs, hnot, hdis⟩ := h.hands u b hold
      exact ⟨fun hb ↦ hqueue (hmem hb), fd, hs, hpending ▸ hnot, hdis⟩
  · rcases hcases hu with ⟨rfl, rfl⟩ | ⟨-, hold⟩
    · rcases hcases hu' with ⟨rfl, -⟩ | ⟨-, hold'⟩
      · rfl
      · exact absurd hhead (h.hands u' b hold').1
    · rcases hcases hu' with ⟨rfl, rfl⟩ | ⟨-, hold'⟩
      · exact absurd hhead (h.hands u b hold).1
      · exact h.alone u u' b hold hold'
  · refine ⟨(h.stage u).1, fun hu ↦ ?_⟩
    by_cases hut : u = t
    · subst hut
      exact (h.stage u).2 ht
    · exact (h.stage u).2 ((hj u hut).symm.trans hu)
  · rw [hpending]
    exact h.pending
  · rw [hpending]
    exact h.nodup

/-- Nothing of a work that a worker lets go of is changed. -/
theorem Placed.execute [DecidableEq T] (h : s.Placed) (hb : crew.batch = s.crew.batch)
    (hq : crew.queue = s.crew.queue) (hself : crew.job t = none)
    (hj : ∀ u, u ≠ t → crew.job u = s.crew.job u) :
    ({ s.goto t .outside with crew } : Sys T).Placed := by
  have hpending : ({ s.goto t .outside with crew } : Sys T).pending = s.pending := by
    dsimp only [Sys.pending]
    rw [hb]
  have hother {u : T} {b : Addr} (hu : crew.job u = some b) : u ≠ t ∧ s.crew.job u = some b := by
    have hut : u ≠ t := by
      rintro rfl
      cases hu.symm.trans hself
    exact ⟨hut, (hj u hut).symm.trans hu⟩
  have hstage {u : T} (hut : u ≠ t) : (s.goto t .outside).stage u = s.stage u :=
    Function.update_of_ne hut _ _
  refine ⟨fun b hb ↦ ?_, ?_, fun u b hu ↦ ?_, fun u u' b hu hu' ↦ ?_, fun u ↦ ?_, ?_, ?_⟩
  · rw [show ({ s.goto t .outside with crew } : Sys T).crew.queue = s.crew.queue from hq] at hb
    obtain ⟨fd, hs, hnot, hdis⟩ := h.queue b hb
    exact ⟨fd, hs, hpending ▸ hnot, hdis⟩
  · dsimp only
    rw [hq]
    exact h.once
  · obtain ⟨hut, hold⟩ := hother hu
    obtain ⟨hqueue, fd, hs, hnot, hdis⟩ := h.hands u b hold
    dsimp only
    rw [hq, hstage hut]
    exact ⟨hqueue, fd, hs, hpending ▸ hnot, hdis⟩
  · exact h.alone u u' b (hother hu).2 (hother hu').2
  · by_cases hut : u = t
    · subst hut
      simp [Sys.goto]
    · dsimp only
      rw [hstage hut, hj u hut]
      exact h.stage u
  · rw [hpending]
    exact h.pending
  · rw [hpending]
    exact h.nodup

end Crew

/-! ### Steps of a worker that has a work -/

section Worker

variable [DecidableEq T] {p : Stage} {m : Mode}

theorem Placed.goto (h : s.Placed) (ha : s.crew.job t = some a) (hp : p ≠ .delivered)
    (hstage : p = .outside ∨ p = .inside → s.stage t = .outside ∨ s.stage t = .inside) :
    (s.goto t p).Placed := by
  have hself : (s.goto t p).stage t = p := Function.update_self _ _ _
  have hother {u : T} (hut : u ≠ t) : (s.goto t p).stage u = s.stage u :=
    Function.update_of_ne hut _ _
  refine ⟨h.queue, h.once, fun u b hu ↦ ?_, h.alone, fun u ↦ ?_, h.pending, h.nodup⟩
  · obtain ⟨hqueue, fd, hs, hnot, hdis⟩ := h.hands u b hu
    refine ⟨hqueue, fd, hs, hnot, fun hst ↦ hdis ?_⟩
    by_cases hut : u = t
    · subst hut
      rw [hself] at hst
      exact hstage hst
    · rw [hother hut] at hst
      exact hst
  · by_cases hut : u = t
    · subst hut
      rw [hself]
      refine ⟨hp, fun hnone ↦ ?_⟩
      cases ha.symm.trans hnone
    · rw [hother hut]
      exact h.stage u

/-- The worker's own work is watched again, and nobody else's. -/
theorem Placed.rearm (h : s.Placed) (hr : s.Registered) (ha : s.crew.job t = some a)
    (hserves : s.Serves a fd) :
    ({ s with fds := Function.update s.fds fd (.armed m) }.goto t .rescheduled).Placed := by
  obtain ⟨hqueue, fd', hs, hnot, -⟩ := h.hands t a ha
  have hsame : fd' = fd := by
    obtain ⟨w, hw, -, rfl⟩ := hserves
    exact (hs.fd_unique hw).symm
  subst hsame
  have hne {b : Addr} {fd : Fd} (hb : s.Serves b fd) (hab : b ≠ a) : fd ≠ fd' := by
    rintro rfl
    exact hab (hr.unique hb hserves)
  have hself : (({ s with fds := Function.update s.fds fd' (.armed m) } : Sys T).goto t
      .rescheduled).stage t = .rescheduled := Function.update_self _ _ _
  have hother {u : T} (hut : u ≠ t) : (({ s with
      fds := Function.update s.fds fd' (.armed m) } : Sys T).goto t .rescheduled).stage u =
      s.stage u := Function.update_of_ne hut _ _
  refine ⟨fun b hb ↦ ?_, h.once, fun u b hu ↦ ?_, h.alone, fun u ↦ ?_, fun fd hfd ↦ ?_, h.nodup⟩
  · obtain ⟨fd, hb', hnot', hdis⟩ := h.queue b hb
    refine ⟨fd, hb', hnot', ?_⟩
    have hab : b ≠ a := by
      rintro rfl
      exact hqueue hb
    exact (Function.update_of_ne (hne hb' hab) _ _).trans hdis
  · obtain ⟨hqueue', fd, hb', hnot', hdis⟩ := h.hands u b hu
    refine ⟨hqueue', fd, hb', hnot', fun hst ↦ ?_⟩
    by_cases hut : u = t
    · subst hut
      rw [hself] at hst
      rcases hst with hst | hst <;> cases hst
    · rw [hother hut] at hst
      have hab : b ≠ a := by
        rintro rfl
        exact hut (h.alone u t b hu ha)
      exact (Function.update_of_ne (hne hb' hab) _ _).trans (hdis hst)
  · by_cases hut : u = t
    · subst hut
      rw [hself]
      refine ⟨nofun, fun hnone ↦ ?_⟩
      cases ha.symm.trans hnone
    · rw [hother hut]
      exact h.stage u
  · have hfd' : fd ≠ fd' := by
      rintro rfl
      exact hnot hfd
    exact (Function.update_of_ne hfd' _ _).trans (h.pending fd hfd)

end Worker

/-! ### Works come and go -/

theorem Serves.of_delete (h : (s.delete a).Serves b fd) : s.Serves b fd ∧ a ≠ b := by
  obtain ⟨w, hw, halive, hfd⟩ := h
  obtain ⟨hold, hab⟩ := Sys.works_of_delete hw halive
  exact ⟨⟨w, hold, halive, hfd⟩, hab⟩

theorem fds_delete (hw : s.works[a]? = some w) :
    (s.delete a).fds = Function.update s.fds w.fd .closed := by
  unfold Sys.delete
  rw [hw]

theorem Serves.of_append (h : s'.Serves a fd) (hs : s'.works = s.works ++ [w]) :
    s.Serves a fd ∨ a = s.works.length ∧ w.fd = fd := by
  obtain ⟨v, hv, halive, hfd⟩ := h
  rcases Sys.works_of_concat hs hv with hold | ⟨hlen, rfl⟩
  · exact .inl ⟨v, hold, halive, hfd⟩
  · exact .inr ⟨hlen, hfd⟩

theorem Serves.of_modify {f : Work → Work} (h : (s.modify b f).Serves a fd)
    (hdel : ∀ w, (f w).deleted = w.deleted) (hfd : ∀ w, (f w).fd = w.fd) : s.Serves a fd := by
  obtain ⟨v, hv, halive, hserves⟩ := h
  rw [Sys.modify, List.getElem?_modify] at hv
  obtain ⟨w, hw, rfl⟩ := Option.map_eq_some_iff.mp hv
  split at halive
  · next hba =>
    rw [if_pos hba] at hserves
    exact ⟨w, hw, (hdel w).symm.trans halive, (hfd w).symm.trans hserves⟩
  · next hba =>
    rw [if_neg hba] at hserves
    exact ⟨w, hw, halive, hserves⟩

/-- A work that nobody has is deleted. -/
theorem Placed.delete (h : s.Placed) (hr : s.Registered) (ha : s.Serves a fd)
    (hqueue : a ∉ s.crew.queue) (hhands : ∀ t, s.crew.job t ≠ some a) (hnot : fd ∉ s.pending) :
    (s.delete a).Placed := by
  have hcrew : (s.delete a).crew = s.crew := by
    unfold Sys.delete
    split <;> rfl
  have hstage : (s.delete a).stage = s.stage := by
    unfold Sys.delete
    split <;> rfl
  have hpending : (s.delete a).pending = s.pending := by
    rw [Sys.pending, hcrew]
    rfl
  obtain ⟨w, hw, halive, rfl⟩ := ha
  have hfds {fd : Fd} (hfd : fd ≠ w.fd) : (s.delete a).fds fd = s.fds fd := by
    rw [fds_delete hw, Function.update_of_ne hfd]
  have hne {b : Addr} {fd : Fd} (hb : s.Serves b fd) (hab : b ≠ a) : fd ≠ w.fd := by
    rintro rfl
    exact hab (hr.unique hb ⟨w, hw, halive, rfl⟩)
  refine ⟨fun b hb ↦ ?_, ?_, fun t b ht ↦ ?_, fun t u b ↦ ?_, fun t ↦ ?_, fun fd hfd ↦ ?_, ?_⟩
  · rw [hcrew] at hb
    obtain ⟨fd, hs, hnot', hdis⟩ := h.queue b hb
    have hab : b ≠ a := by
      rintro rfl
      exact hqueue hb
    exact ⟨fd, hs.delete (Ne.symm hab), hpending ▸ hnot', (hfds (hne hs hab)).trans hdis⟩
  · rw [hcrew]
    exact h.once
  · rw [hcrew] at ht
    obtain ⟨hqueue', fd, hs, hnot', hdis⟩ := h.hands t b ht
    have hab : b ≠ a := by
      rintro rfl
      exact hhands t ht
    rw [hcrew, hstage]
    exact ⟨hqueue', fd, hs.delete (Ne.symm hab), hpending ▸ hnot',
      fun hst ↦ (hfds (hne hs hab)).trans (hdis hst)⟩
  · rw [hcrew]
    exact h.alone t u b
  · rw [hcrew, hstage]
    exact h.stage t
  · rw [hpending] at hfd
    have hne' : fd ≠ w.fd := by
      rintro rfl
      exact hnot hfd
    exact (hfds hne').trans (h.pending fd hfd)
  · rw [hpending]
    exact h.nodup

theorem Registered.delete (h : s.Registered) (ha : s.Serves a fd) : (s.delete a).Registered := by
  obtain ⟨w, hw, halive, rfl⟩ := ha
  have hne {b : Addr} {fd : Fd} (hb : s.Serves b fd) (hab : a ≠ b) : fd ≠ w.fd := by
    rintro rfl
    exact hab (h.unique ⟨w, hw, halive, rfl⟩ hb)
  refine ⟨fun fd b hb ↦ ?_, fun b fd hb ↦ ?_, fun fd hfd hwatched ↦ ?_⟩
  · rw [lookup_delete hw] at hb
    split at hb
    · cases hb
    · obtain ⟨v, hv, hvfd⟩ := h.pairs fd b hb
      unfold Sys.delete
      rw [hw]
      dsimp only
      rw [List.getElem?_modify, hv]
      refine ⟨_, rfl, ?_⟩
      split <;> exact hvfd
  · obtain ⟨hold, hab⟩ := hb.of_delete
    obtain ⟨hclosed, hwatched, hlookup⟩ := h.live b fd hold
    have hfd := hne hold hab
    rw [fds_delete hw, Function.update_of_ne hfd, lookup_delete hw,
      if_neg (fun hboth ↦ hfd hboth.2)]
    exact ⟨hclosed, hwatched, hlookup⟩
  · rw [fds_delete hw] at hfd hwatched
    by_cases hsame : fd = w.fd
    · subst hsame
      rw [Function.update_self] at hfd
      exact absurd rfl hfd
    · rw [Function.update_of_ne hsame] at hfd hwatched
      obtain ⟨b, hb⟩ := h.known fd hfd hwatched
      refine ⟨b, hb.delete ?_⟩
      rintro rfl
      exact hsame (hb.fd_unique hw).symm

/-- A new work for a descriptor that has been closed. -/
theorem Registered.add (h : s.Registered) (hworks : s'.works = s.works ++ [w])
    (halive : w.deleted = false) (hclosed : s.fds w.fd = .closed)
    (hwmap : s'.wmap = s.wmap.insert w.fd s.works.length) {m : Mode}
    (hfds : s'.fds = Function.update s.fds w.fd (.armed m)) : s'.Registered := by
  have hlast : s'.works[s.works.length]? = some w := by
    rw [hworks]
    exact List.getElem?_concat_length
  refine ⟨fun fd b hb ↦ ?_, fun b fd hb ↦ ?_, fun fd hfd hwatched ↦ ?_⟩
  · rw [hwmap] at hb
    rcases lookup_insert_eq_some hb with ⟨rfl, rfl⟩ | ⟨-, hold⟩
    · exact ⟨w, hlast, rfl⟩
    · obtain ⟨v, hv, hvfd⟩ := h.pairs fd b hold
      refine ⟨v, ?_, hvfd⟩
      rw [hworks, List.getElem?_append_left (List.getElem?_eq_some_iff.mp hv).1]
      exact hv
  · rcases hb.of_append hworks with hold | ⟨rfl, rfl⟩
    · obtain ⟨hopen, hwatched, hlookup⟩ := h.live b fd hold
      have hne : fd ≠ w.fd := by
        rintro rfl
        exact hopen hclosed
      rw [hfds, hwmap, Function.update_of_ne hne, AList.lookup_insert_ne hne]
      exact ⟨hopen, hwatched, hlookup⟩
    · rw [hfds, hwmap, Function.update_self, AList.lookup_insert]
      exact ⟨nofun, nofun, rfl⟩
  · rw [hfds] at hfd hwatched
    by_cases hsame : fd = w.fd
    · subst hsame
      exact ⟨s.works.length, w, hlast, halive, rfl⟩
    · rw [Function.update_of_ne hsame] at hfd hwatched
      obtain ⟨b, hb⟩ := h.known fd hfd hwatched
      exact ⟨b, hb.append ⟨w, hworks⟩⟩

/-- Watching or not makes no difference. -/
theorem Registered.of_fds (h : s.Registered) (hworks : s'.works = s.works) (hwmap : s'.wmap = s.wmap)
    (hfds : ∀ fd, s'.fds fd = s.fds fd ∨ (s.fds fd ≠ .closed ∧ s.fds fd ≠ .unwatched) ∧
      s'.fds fd ≠ .closed ∧ s'.fds fd ≠ .unwatched) : s'.Registered := by
  have hserves {a : Addr} {fd : Fd} : s'.Serves a fd ↔ s.Serves a fd := by
    unfold Serves
    rw [hworks]
  refine ⟨fun fd b hb ↦ ?_, fun b fd hb ↦ ?_, fun fd hfd hwatched ↦ ?_⟩
  · rw [hwmap] at hb
    rw [hworks]
    exact h.pairs fd b hb
  · obtain ⟨hopen, hwatched, hlookup⟩ := h.live b fd (hserves.mp hb)
    rw [hwmap]
    rcases hfds fd with hsame | ⟨-, hopen', hwatched'⟩
    · rw [hsame]
      exact ⟨hopen, hwatched, hlookup⟩
    · exact ⟨hopen', hwatched', hlookup⟩
  · have hknown : s.fds fd ≠ .closed ∧ s.fds fd ≠ .unwatched := by
      rcases hfds fd with hsame | ⟨hknown, -⟩
      · rw [← hsame]
        exact ⟨hfd, hwatched⟩
      · exact hknown
    obtain ⟨b, hb⟩ := h.known fd hknown.1 hknown.2
    exact ⟨b, hserves.mpr hb⟩

theorem Registered.modify (h : s.Registered) {f : Work → Work}
    (hdel : ∀ w, (f w).deleted = w.deleted) (hfd : ∀ w, (f w).fd = w.fd) :
    (s.modify b f).Registered := by
  refine ⟨fun fd a ha ↦ ?_, fun a fd ha ↦ h.live a fd (ha.of_modify hdel hfd),
    fun fd hopen hwatched ↦ ?_⟩
  · obtain ⟨w, hw, hwfd⟩ := h.pairs fd a ha
    rw [Sys.modify, List.getElem?_modify, hw]
    refine ⟨_, rfl, ?_⟩
    split
    · rw [hfd]
      exact hwfd
    · exact hwfd
  · obtain ⟨a, ha⟩ := h.known fd hopen hwatched
    exact ⟨a, ha.modify hdel hfd⟩

/-! ### The end -/

theorem Serves.of_foldl {as : List Addr} (h : (as.foldl Sys.delete s).Serves a fd) :
    s.Serves a fd ∧ a ∉ as := by
  obtain ⟨w, hw, halive, hfd⟩ := h
  obtain ⟨hold, hnot⟩ := Sys.works_of_foldl_delete hw halive
  exact ⟨⟨w, hold, halive, hfd⟩, hnot⟩

private theorem closed_delete (h : s.fds fd = .closed) : (s.delete a).fds fd = .closed := by
  cases hw : s.works[a]? with
  | none =>
    unfold Sys.delete
    rw [hw]
    exact h
  | some w =>
    rw [fds_delete hw]
    by_cases hfd : fd = w.fd
    · rw [hfd, Function.update_self]
    · rw [Function.update_of_ne hfd]
      exact h

/-- Deletion opens nothing. -/
private theorem fds_foldl (s : Sys T) (as : List Addr) (fd : Fd) :
    (as.foldl Sys.delete s).fds fd = .closed ∨ (as.foldl Sys.delete s).fds fd = s.fds fd := by
  induction as generalizing s with
  | nil => exact .inr rfl
  | cons a as ih =>
    rw [List.foldl_cons]
    rcases ih (s.delete a) with hclosed | hsame
    · exact .inl hclosed
    · rw [hsame]
      cases hw : s.works[a]? with
      | none =>
        unfold Sys.delete
        rw [hw]
        exact .inr rfl
      | some w =>
        rw [fds_delete hw]
        by_cases hfd : fd = w.fd
        · rw [hfd, Function.update_self]
          exact .inl rfl
        · rw [Function.update_of_ne hfd]
          exact .inr rfl

/-- The descriptors of what has been deleted are closed. -/
private theorem closed_foldl {as : List Addr} (h : s.fds fd = .closed ∨ ∃ a ∈ as, s.Serves a fd) :
    (as.foldl Sys.delete s).fds fd = .closed := by
  induction as generalizing s with
  | nil =>
    rcases h with hclosed | ⟨a, ha, -⟩
    · exact hclosed
    · cases ha
  | cons b as ih =>
    apply ih
    rcases h with hclosed | ⟨a, ha, hserves⟩
    · exact .inl (closed_delete hclosed)
    · by_cases hba : b = a
      · obtain ⟨w, hw, -, rfl⟩ := hserves
        subst hba
        left
        rw [fds_delete hw, Function.update_self]
      · have hmem : a ∈ as := by
          rcases List.mem_cons.mp ha with rfl | hmem
          · exact absurd rfl hba
          · exact hmem
        exact .inr ⟨a, hmem, hserves.delete hba⟩

/-- What the map has. -/
theorem Registered.mem_values (h : s.Registered) (ha : s.Serves a fd) :
    a ∈ s.wmap.entries.map Sigma.snd := by
  have hlookup := (h.live a fd ha).2.2
  exact List.mem_map.mpr ⟨⟨fd, a⟩, AList.mem_lookup_iff.mp hlookup, rfl⟩

/-- Nothing is left. -/
theorem Registered.not_serves_clear (h : s.Registered) : ¬ s.clear.Serves a fd := by
  intro ha
  have ha' : ((s.wmap.entries.map Sigma.snd).foldl Sys.delete s).Serves a fd := ha
  obtain ⟨hold, hnot⟩ := ha'.of_foldl
  exact hnot (h.mem_values hold)

theorem Registered.clear (h : s.Registered) : s.clear.Registered := by
  refine ⟨fun fd a ha ↦ ?_, fun a fd ha ↦ absurd ha h.not_serves_clear, fun fd hfd hwatched ↦ ?_⟩
  · simp [Sys.clear] at ha
  · have hsame : s.clear.fds fd = s.fds fd := (fds_foldl s _ fd).resolve_left hfd
    rw [hsame] at hfd hwatched
    obtain ⟨a, ha⟩ := h.known fd hfd hwatched
    exact absurd (closed_foldl (.inr ⟨a, h.mem_values ha, ha⟩)) (hsame ▸ hfd)

end Sys

end Filth.Sched
