import Filth.Sched.Places

/-!
# One owner for each connection

When the invariant of `Scheduler::poll`, `src/Scheduler.cpp:179–190`, holds: a connection that has
been reported is in no job queue and with no worker; and no deleted work is in the job queue, with
a worker, or found for a connection that epoll watches.
-/

namespace Filth.Sched

open Base

variable {T : Type}

namespace Sys

/-- What holds as long as no step breaks the rules. -/
structure Kept (s : Sys T) : Prop where
  registered : s.Registered
  placed : s.Placed
  tidy : s.crew.Tidy

theorem kept_new : (new : Sys T).Kept := by
  refine ⟨⟨fun fd a ha ↦ ?_, ?_, fun fd hfd _ ↦ absurd rfl hfd⟩, ⟨?_, List.nodup_nil, nofun, nofun,
    fun t ↦ ⟨nofun, fun _ ↦ rfl⟩, nofun, List.nodup_nil⟩, fun _ ↦ rfl⟩
  · simp [new] at ha
  · rintro a fd ⟨w, hw, -⟩
    cases hw
  · intro a ha
    cases ha

end Sys

/-- The rules: no connection is reported whose work a worker still has; no descriptor gets a new
work of which the map has a pair; no response is delivered; and when the map is destroyed, no work
is left in the queue. -/
def SysAct.Separate (s : Sys T) : SysAct T → Prop
  | .report events => ∀ t a w, s.crew.job t = some a → s.works[a]? = some w →
    w.fd ∉ events.filterMap Event.conn
  | .callback (some fd) | .relay _ fd => s.wmap.lookup fd = none
  | .deliver _ => False
  | .clear => s.crew.queue = []
  | _ => True

section Step

variable {s s' : Sys T} {a : SysAct T}

theorem crew_delete (s : Sys T) (b : Addr) : (s.delete b).crew = s.crew := by
  unfold Sys.delete
  split <;> rfl

private theorem stage_delete (s : Sys T) (b : Addr) : (s.delete b).stage = s.stage := by
  unfold Sys.delete
  split <;> rfl

private theorem crew_foldl (s : Sys T) (as : List Addr) :
    (as.foldl Sys.delete s).crew = s.crew := by
  induction as generalizing s with
  | nil => rfl
  | cons b as ih => rw [List.foldl_cons, ih, crew_delete]

private theorem stage_foldl (s : Sys T) (as : List Addr) :
    (as.foldl Sys.delete s).stage = s.stage := by
  induction as generalizing s with
  | nil => rfl
  | cons b as ih => rw [List.foldl_cons, ih, stage_delete]

/-- Works that are made to be scheduled at once. -/
theorem kept_add {w : Work} {m : Mode} (h : s.Kept)
    (hworks : s'.works = s.works ++ [w]) (halive : w.deleted = false)
    (hclosed : s.fds w.fd = .closed) (hwmap : s'.wmap = s.wmap.insert w.fd s.works.length)
    (hfds : s'.fds = Function.update s.fds w.fd (.armed m)) (hcrew : s'.crew = s.crew)
    (hstage : s'.stage = s.stage) : s'.Kept := by
  refine ⟨h.registered.add hworks halive hclosed hwmap hfds, ?_, ?_⟩
  · refine h.placed.frame hcrew hstage (fun a fd ha ↦ ha.append ⟨w, hworks⟩) fun fd hfd ↦ ?_
    have hne : fd ≠ w.fd := by
      rintro rfl
      cases hclosed.symm.trans hfd
    rw [hfds, Function.update_of_ne hne]
    exact hfd
  · rw [hcrew]
    exact h.tidy

private theorem kept_modify {b : Addr} {f : Work → Work} (h : s.Kept)
    (hdel : ∀ w, (f w).deleted = w.deleted) (hfd : ∀ w, (f w).fd = w.fd) :
    (s.modify b f).Kept :=
  ⟨h.registered.modify hdel hfd,
    h.placed.frame rfl rfl (fun _ _ ha ↦ ha.modify hdel hfd) fun _ ↦ id, h.tidy⟩

/-- An event that is to be handled is about the work that is found for it, and nobody has that. -/
theorem kept_findWork {fd : Fd} (h : s.Kept) (hfd : fd ∈ s.pending) :
    ∃ b, s.findWork fd = (b, s) ∧ s.Serves b fd ∧ b ∉ s.crew.queue ∧ ∀ t, s.crew.job t ≠ some b := by
  have hdis := h.placed.pending fd hfd
  obtain ⟨b, hb⟩ := h.registered.known fd (by simp [hdis]) (by simp [hdis])
  have hlookup := (h.registered.live b fd hb).2.2
  have hfree := (Sys.owned_of_placed h.registered h.placed).pending fd hfd b
  obtain ⟨w, hw, halive, hwfd⟩ := hb
  obtain ⟨hqueue, hhands⟩ := hfree w hw hwfd
  refine ⟨b, ?_, ⟨w, hw, halive, hwfd⟩, hqueue, hhands⟩
  unfold Sys.findWork
  rw [hlookup]

/-- A work that nobody has may be deleted. -/
theorem kept_delete {b : Addr} {fd : Fd} (h : s.Kept) (hb : s.Serves b fd)
    (hqueue : b ∉ s.crew.queue) (hhands : ∀ t, s.crew.job t ≠ some b) (hfd : fd ∉ s.pending) :
    (s.delete b).Kept := by
  refine ⟨h.registered.delete hb, h.placed.delete h.registered hb hqueue hhands hfd, ?_⟩
  rw [crew_delete]
  exact h.tidy

/-- Nothing is left of the works when the map is destroyed, and nobody had one. -/
private theorem kept_clear (h : s.Kept) (hp : s.crew.phase = .retired) (hq : s.crew.queue = [])
    (hh : ∀ t, s.crew.hands t = .retired) : s.clear.Kept := by
  have hcrew : s.clear.crew = s.crew := crew_foldl s _
  have hstage : s.clear.stage = s.stage := stage_foldl s _
  have hpending : s.clear.pending = [] := by
    rw [Sys.pending, hcrew, h.tidy (.inr hp)]
    rfl
  have hjob : ∀ t, s.clear.crew.job t = none := by
    intro t
    rw [hcrew, Crew.job, hh t]
  refine ⟨h.registered.clear, ⟨?_, ?_, fun t a ht ↦ ?_, fun t u a ht ↦ ?_, fun t ↦ ?_, ?_, ?_⟩, ?_⟩
  · rw [hcrew, hq]
    exact fun a ha ↦ absurd ha List.not_mem_nil
  · rw [hcrew, hq]
    exact List.nodup_nil
  · cases (hjob t).symm.trans ht
  · cases (hjob t).symm.trans ht
  · rw [hcrew, hstage]
    exact h.placed.stage t
  · rw [hpending]
    exact fun fd hfd ↦ absurd hfd List.not_mem_nil
  · rw [hpending]
    exact List.nodup_nil
  · rw [hcrew]
    exact h.tidy

/-- A connection is accepted whose descriptor has no pair. -/
private theorem kept_accept {crew : Crew T Addr Event} {fd : Fd}
    (h : ({ s with crew } : Sys T).Kept) (hnone : s.wmap.lookup fd = none)
    (hclosed : s.fds fd = .closed)
    (hs : (s.accept crew fd).2.schedule (s.accept crew fd).1 = some s') : s'.Kept := by
  have heq : s.accept crew fd = (s.works.length, { s with
      crew, fds := Function.update s.fds fd .unwatched
      works := s.works ++ [Work.new fd .read (.server false)]
      wmap := s.wmap.insert fd s.works.length }) := by
    unfold Sys.accept Sys.findWork
    dsimp only
    rw [hnone]
  rw [heq] at hs
  obtain ⟨w, hw, -, rfl⟩ := Sys.schedule_eq_some hs
  dsimp only at hw
  rw [List.getElem?_concat_length] at hw
  cases hw
  refine kept_add (w := Work.new fd .read (.server false)) (m := .read) h rfl rfl hclosed rfl ?_ rfl
    rfl
  exact Function.update_idem _ _ _

/-- A request is relayed to a descriptor that has no pair. -/
private theorem kept_relayed {b : Addr} {fd : Fd} (h : s.Kept) (hb : b < s.works.length)
    (hnone : s.wmap.lookup fd = none) (hclosed : s.fds fd = .closed)
    (hs : (s.relayed b fd).schedule s.works.length = some s') : s'.Kept := by
  have heq : s.relayed b fd = ({ s with
      works := s.works ++ [Work.new fd .write (.client b)]
      wmap := s.wmap.insert fd s.works.length
      fds := Function.update s.fds fd .unwatched } : Sys T).modify b (Work.setNosch · true) := by
    unfold Sys.relayed Sys.registerAlien
    dsimp only
    rw [hnone]
    rfl
  rw [heq] at hs
  obtain ⟨w, hw, -, rfl⟩ := Sys.schedule_eq_some hs
  have hne : b ≠ s.works.length := Nat.ne_of_lt hb
  have hwork : w = Work.new fd .write (.client b) := by
    simpa [Sys.modify, hne, eq_comm] using hw
  subst hwork
  have hadd : ({ s with
      works := s.works ++ [Work.new fd .write (.client b)]
      wmap := s.wmap.insert fd s.works.length
      fds := Function.update s.fds fd (.armed .write) } : Sys T).Kept :=
    kept_add (w := Work.new fd .write (.client b)) (m := .write) h rfl rfl hclosed rfl rfl rfl rfl
  have hmodify := kept_modify (b := b) (f := (Work.setNosch · true)) hadd
    (Sys.deleted_setNosch · true) (Sys.fd_setNosch · true)
  have hfds : Function.update (Function.update s.fds fd .unwatched) fd (.armed .write) =
      Function.update s.fds fd (.armed .write) := Function.update_idem _ _ _
  dsimp only [Sys.modify, Work.new] at hmodify ⊢
  rw [hfds]
  exact hmodify

/-- A pair that is left over gets watched. -/
private theorem lookup_of_accept {crew : Crew T Addr Event} {fd : Fd} (h : s.Kept)
    (hclosed : s.fds fd = .closed)
    (hs : (s.accept crew fd).2.schedule (s.accept crew fd).1 = some s') (h' : s'.Owned) :
    s.wmap.lookup fd = none := by
  cases hlookup : s.wmap.lookup fd with
  | none => rfl
  | some b =>
    have heq : s.accept crew fd =
        (b, { s with crew, fds := Function.update s.fds fd .unwatched }) := by
      unfold Sys.accept Sys.findWork
      dsimp only
      rw [hlookup]
    rw [heq] at hs
    obtain ⟨w, hw, -, rfl⟩ := Sys.schedule_eq_some hs
    obtain ⟨v, hv, hvfd⟩ := h.registered.pairs fd b hlookup
    cases hv.symm.trans hw
    subst hvfd
    have halive := h'.armed _ _ b (Function.update_self _ _ _) hlookup
    exact absurd halive (h.registered.not_alive hclosed hlookup)

private theorem lookup_of_relay {b : Addr} {fd : Fd} (h : s.Kept) (hb : b < s.works.length)
    (hclosed : s.fds fd = .closed)
    (hs : (s.relayed b fd).schedule s.works.length = some s') (h' : s'.Owned) :
    s.wmap.lookup fd = none := by
  cases hlookup : s.wmap.lookup fd with
  | none => rfl
  | some c =>
    have heq : s.relayed b fd = ({ s with
        works := s.works ++ [Work.new fd .write (.client b)]
        fds := Function.update s.fds fd .unwatched } : Sys T).modify b (Work.setNosch · true) := by
      unfold Sys.relayed Sys.registerAlien
      dsimp only
      rw [hlookup]
      rfl
    rw [heq] at hs
    obtain ⟨w, hw, -, rfl⟩ := Sys.schedule_eq_some hs
    have hne : b ≠ s.works.length := Nat.ne_of_lt hb
    have hwork : w = Work.new fd .write (.client b) := by
      simpa [Sys.modify, hne, eq_comm] using hw
    subst hwork
    obtain ⟨fd', hc⟩ := (h'.armed fd .write c (Function.update_self _ _ _) hlookup).serves
    have hc' := Sys.Serves.of_modify (s := { s with
        works := s.works ++ [Work.new fd .write (.client b)]
        fds := Function.update s.fds fd .unwatched }) hc (Sys.deleted_setNosch · true)
      (Sys.fd_setNosch · true)
    rcases hc'.of_append rfl with hold | ⟨rfl, -⟩
    · exact absurd hold.alive (h.registered.not_alive hclosed hlookup)
    · obtain ⟨v, hv, -⟩ := h.registered.pairs fd _ hlookup
      exact absurd (List.getElem?_eq_some_iff.mp hv).1 (Nat.lt_irrefl _)

/-- Nothing is watched that has no work. -/
private theorem kept_leak {fd : Fd} (h : s.Kept) (hclosed : s.fds fd = .closed) :
    ({ s with fds := Function.update s.fds fd .unwatched } : Sys T).Kept := by
  have hr := h.registered
  have hold {fd' : Fd} (hfd' : s.fds fd' ≠ .closed) :
      Function.update s.fds fd .unwatched fd' = s.fds fd' := by
    apply Function.update_of_ne
    rintro rfl
    exact hfd' hclosed
  refine ⟨⟨hr.pairs, fun a fd' ha ↦ ?_, fun fd' hopen hwatched ↦ ?_⟩, ?_, h.tidy⟩
  · have hlive := hr.live a fd' ha
    dsimp only
    rw [hold hlive.1]
    exact hlive
  · dsimp only at hopen hwatched
    by_cases hsame : fd' = fd
    · subst hsame
      exact absurd (Function.update_self _ _ _) hwatched
    · rw [Function.update_of_ne hsame] at hopen hwatched
      exact hr.known fd' hopen hwatched
  · refine h.placed.frame rfl rfl (fun _ _ ha ↦ ha) fun fd' hdis ↦ ?_
    dsimp only
    rw [hold (by simp [hdis])]
    exact hdis

variable [DecidableEq T]

/-- The scheduler is done with an event that is not about a work. -/
theorem kept_handle {crew : Crew T Addr Event} (h : s.Kept)
    (hcrew : s.crew.step (.handle none) = some crew) : ({ s with crew } : Sys T).Kept := by
  have hr := h.registered
  refine ⟨⟨hr.pairs, hr.live, hr.known⟩, ?_, h.tidy.step hcrew⟩
  cases Crew.step_shifts hcrew with
  | handle hb hq hj =>
    refine h.placed.still ?_ (hq.trans (List.append_nil _)) hj
    rw [hb]
    exact List.sublist_cons_self _ _
  | aside ha => exact ha.elim

/-- A worker goes on with its work. -/
theorem kept_goto {t : T} {b : Addr} {p : Stage} (h : s.Kept) (ha : s.crew.job t = some b)
    (hp : p ≠ .delivered)
    (hstage : p = .outside ∨ p = .inside → s.stage t = .outside ∨ s.stage t = .inside) :
    (s.goto t p).Kept := by
  have hr := h.registered
  exact ⟨⟨hr.pairs, hr.live, hr.known⟩, h.placed.goto ha hp hstage, h.tidy⟩

/-- A worker reschedules its work. -/
theorem kept_reschedule {t : T} {b : Addr} (h : s.Kept) (ha : s.crew.job t = some b)
    (hs : s.reschedule b = some s') : (s'.goto t .rescheduled).Kept := by
  obtain ⟨w, hw, hopen, hwatched, rfl⟩ := Sys.reschedule_eq_some hs
  have hr := h.registered
  obtain ⟨-, fd, hserves, -⟩ := h.placed.hands t b ha
  have hfd := hserves.fd_unique hw
  subst hfd
  have hr' : ({ s with fds := Function.update s.fds w.fd (.armed w.m) } : Sys T).Registered := by
    refine hr.of_fds rfl rfl fun fd ↦ ?_
    by_cases hfd : fd = w.fd
    · subst hfd
      right
      simp [hopen, hwatched]
    · left
      exact Function.update_of_ne hfd _ _
  exact ⟨⟨hr'.pairs, hr'.live, hr'.known⟩, h.placed.rearm hr ha hserves, h.tidy⟩

/-- A worker lets go of its work. -/
theorem kept_execute {t : T} {crew : Crew T Addr Event} (h : s.Kept)
    (hcrew : s.crew.step (.execute t) = some crew) :
    ({ s.goto t .outside with crew } : Sys T).Kept ∧ crew.queue = s.crew.queue ∧
      crew.batch = s.crew.batch ∧ crew.job t = none ∧ ∀ u, u ≠ t → crew.job u = s.crew.job u := by
  have hr := h.registered
  cases Crew.step_shifts hcrew with
  | aside ha => exact ha.elim
  | execute hb hq hself hj =>
    exact ⟨⟨⟨hr.pairs, hr.live, hr.known⟩, h.placed.execute hb hq hself hj, h.tidy.step hcrew⟩,
      hq, hb, hself, hj⟩

omit [DecidableEq T] in
private theorem pending_of_batch {e : Event} {rest : List Event} {fd : Fd}
    (hbatch : s.crew.batch = e :: rest) (he : e.conn = some fd) :
    s.pending = fd :: rest.filterMap Event.conn := by
  rw [Sys.pending, hbatch, List.filterMap_cons, he]

/-- The scheduler deletes the work of a descriptor that has hung up. -/
private theorem kept_hangup {fd : Fd} {crew : Crew T Addr Event} (h : s.Kept)
    (hb : s.crew.batch.head? = some (.hangup fd)) (hcrew : s.crew.step (.handle none) = some crew) :
    ((({ s with crew } : Sys T).findWork fd).2.delete
      (({ s with crew } : Sys T).findWork fd).1).Kept := by
  have hr := h.registered
  have h₁ := kept_handle h hcrew
  cases Crew.step_shifts hcrew with
  | aside ha => exact ha.elim
  | @handle _ e _ hbatch hq hj =>
    rw [hbatch, List.head?_cons] at hb
    cases hb
    have hpending := pending_of_batch hbatch rfl
    have hnodup := h.placed.nodup
    rw [hpending, List.nodup_cons] at hnodup
    have hmem : fd ∈ s.pending := by
      rw [hpending]
      exact List.mem_cons_self
    obtain ⟨b, hfind, hserves, hqueue, hhands⟩ := kept_findWork h hmem
    have hfind' : ({ s with crew } : Sys T).findWork fd = (b, { s with crew }) := by
      have hlookup := (hr.live b fd hserves).2.2
      unfold Sys.findWork
      dsimp only
      rw [hlookup]
    rw [hfind']
    refine kept_delete h₁ hserves ?_ ?_ hnodup.1
    · dsimp only
      rw [hq, Option.toList_none, List.append_nil]
      exact hqueue
    · dsimp only
      rw [hj]
      exact hhands

/-- A worker deletes its work. -/
private theorem kept_doomed {t : T} {b : Addr} {crew : Crew T Addr Event} (h : s.Kept)
    (hjob : s.crew.job t = some b) (hcrew : s.crew.step (.execute t) = some crew) :
    ({ (s.delete b).goto t .outside with crew } : Sys T).Kept := by
  obtain ⟨hqueue, fd, hserves, hfd, -⟩ := h.placed.hands t b hjob
  obtain ⟨h₁, hq, hbatch, hself, hj⟩ := kept_execute h hcrew
  have heq : ({ (s.delete b).goto t .outside with crew } : Sys T) =
      ({ s.goto t .outside with crew } : Sys T).delete b := by
    unfold Sys.delete
    dsimp only [Sys.goto]
    split <;> rfl
  rw [heq]
  have hserves₁ : ({ s.goto t .outside with crew } : Sys T).Serves b fd := hserves
  refine kept_delete h₁ hserves₁ ?_ (fun u hu ↦ ?_) ?_
  · dsimp only
    rw [hq]
    exact hqueue
  · by_cases hut : u = t
    · subst hut
      cases hself.symm.trans hu
    · exact hut (h.placed.alone u t b ((hj u hut).symm.trans hu) hjob)
  · dsimp only [Sys.pending]
    rw [hbatch]
    exact hfd

/-- Steps that keep to the rules. -/
theorem kept_step (h : s.Kept) (hsep : a.Separate s) (hm : Sys.Moves s a s') : s'.Kept := by
  have hr := h.registered
  have hp := h.placed
  cases hm with
  | @crew a ca crew ha hcrew =>
    refine ⟨⟨hr.pairs, hr.live, hr.known⟩, ?_, h.tidy.step hcrew⟩
    cases Crew.step_shifts hcrew with
    | aside _ hb hq hj =>
      refine hp.still ?_ hq hj
      rcases hb with hb | hb
      · rw [hb]
      · rw [hb]
        exact List.nil_sublist _
    | report | handle | execute => cases a <;> cases ha
    | take ht hb hq hself hj => exact hp.take ht hb hq hself hj
  | @report events crew hrep hcrew =>
    cases Crew.step_shifts hcrew with
    | aside ha => exact ha.elim
    | report hb hq hj =>
      refine ⟨?_, hp.report hrep hb hq hj hsep, h.tidy.step hcrew⟩
      refine hr.of_fds rfl rfl fun fd ↦ ?_
      dsimp only [Sys.disarm]
      split
      · next hmem =>
        right
        rcases hrep.2 fd hmem with harmed | harmed <;> simp [harmed]
      · exact .inl rfl
  | @callback crew hb hcrew => exact kept_handle h hcrew
  | @accept fd crew _ hb hfd hcrew hs =>
    exact kept_accept (kept_handle h hcrew) hsep hfd hs
  | @hangup fd crew hb hcrew => exact kept_hangup h hb hcrew
  | @ready fd crew hb hcrew =>
    cases Crew.step_shifts hcrew with
    | aside ha => exact ha.elim
    | @handle _ e _ hbatch hq hj =>
      rw [hbatch, List.head?_cons] at hb
      cases hb
      have hmem : fd ∈ s.pending := by
        rw [pending_of_batch hbatch rfl]
        exact List.mem_cons_self
      obtain ⟨b, hfind, hserves, -⟩ := kept_findWork h hmem
      rw [hfind] at hq ⊢
      exact ⟨⟨hr.pairs, hr.live, hr.known⟩, hp.ready hr hbatch hserves hq hj, h.tidy.step hcrew⟩
  | call ha =>
    obtain ⟨hst, hjob⟩ := Sys.at?_eq_some.mp ha
    exact kept_goto h hjob (by simp) fun _ ↦ .inl hst
  | relay ha hw hserver hfd hs =>
    exact kept_relayed h (List.getElem?_eq_some_iff.mp hw).1 hsep hfd hs
  | leak ha hw hserver hfd => exact kept_leak h hfd
  | @reschedule t m deleteme b w _ ha hw hserver hs =>
    obtain ⟨-, hjob⟩ := Sys.at?_eq_some.mp ha
    have h₁ : (s.leaving b m deleteme).Kept := kept_modify h (fun _ ↦ rfl) fun _ ↦ rfl
    exact kept_reschedule h₁ hjob hs
  | sleep ha =>
    obtain ⟨-, hjob⟩ := Sys.at?_eq_some.mp ha
    exact kept_goto h hjob (by simp) (by simp)
  | fail ha =>
    obtain ⟨-, hjob⟩ := Sys.at?_eq_some.mp ha
    exact kept_goto (kept_modify h (fun _ ↦ rfl) fun _ ↦ rfl) hjob (by simp) (by simp)
  | deliver => exact hsep.elim
  | resume ha hs =>
    obtain ⟨-, hjob⟩ := Sys.at?_eq_some.mp ha
    exact kept_reschedule h hjob hs
  | ret ha | doom ha =>
    obtain ⟨-, hjob⟩ := Sys.at?_eq_some.mp ha
    exact kept_goto h hjob (by simp) (by simp)
  | keep ha hw hd hcrew => exact (kept_execute h hcrew).1
  | delete ha hcrew =>
    obtain ⟨-, hjob⟩ := Sys.at?_eq_some.mp ha
    exact kept_doomed h hjob hcrew
  | clear hret hh => exact kept_clear h hret hsep hh

/-! ### Steps that do not -/

/-- The worker that delivers a response still has the work that it has deleted. -/
private theorem not_owned_of_deliver {t : T} {b c : Addr} {fd : Fd} (hjob : s.crew.job t = some b)
    (hs : (s.delivered b fd c).reschedule c = some s') : ¬ (s'.goto t .delivered).Owned := by
  intro h'
  obtain ⟨w, hw, -, -, rfl⟩ := Sys.reschedule_eq_some hs
  have hcrew : (s.delivered b fd c).crew = s.crew := crew_delete (s.unregister fd) b
  obtain ⟨fd', hb⟩ := (h'.hands t b (by rw [← hjob, ← hcrew]; rfl)).serves
  have hb' := Sys.Serves.of_modify (s := (s.unregister fd).delete b) hb
    (Sys.deleted_setNosch · false) (Sys.fd_setNosch · false)
  exact hb'.of_delete.2 rfl

/-- A step after which everything has one owner has kept to the rules. -/
private theorem separate_of_owned (h : s.Kept) (hm : Sys.Moves s a s') (h' : s'.Owned) :
    a.Separate s := by
  cases hm with
  | crew ha => cases a <;> trivial
  | @report events crew hrep hcrew =>
    cases Crew.step_shifts hcrew with
    | aside ha => exact ha.elim
    | report hb hq hj =>
      intro t b w ht hw hmem
      have hpending : w.fd ∈ ({ s.disarm events with crew } : Sys T).pending := by
        dsimp only [Sys.pending]
        rw [hb]
        exact hmem
      refine (h'.pending w.fd hpending b w hw rfl).2 t ?_
      dsimp only
      rw [hj]
      exact ht
  | accept hb hfd hcrew hs => exact lookup_of_accept h hfd hs h'
  | relay ha hw hserver hfd hs =>
    exact lookup_of_relay h (List.getElem?_eq_some_iff.mp hw).1 hfd hs h'
  | deliver ha hw hclient hs =>
    exact not_owned_of_deliver (Sys.at?_eq_some.mp ha).2 hs h'
  | clear hret hh =>
    refine List.eq_nil_iff_forall_not_mem.mpr fun b hb ↦ ?_
    have hcrew : s.clear.crew = s.crew := crew_foldl s _
    obtain ⟨fd, hserves⟩ := (h'.queue b (by rw [hcrew]; exact hb)).serves
    exact h.registered.not_serves_clear hserves
  | callback | hangup | ready | call | leak | reschedule | sleep | fail | resume | ret | doom | keep |
    delete => trivial

end Step

/-- Every connection and every work has one owner in all states of a run if and only if all steps
keep to the rules. -/
theorem owned_iff_separate [Fintype T] [DecidableEq T] (acts : List (SysAct T)) :
    (system T).AllStates Sys.Owned .new acts ↔
      (system T).AllSteps (fun s a ↦ a.Separate s) .new acts := by
  have hstart := Sys.kept_new (T := T)
  refine Machine.allStates_iff_allSteps _ (J := Sys.Kept) (fun s a s' _ h hstep ↦ ?_)
    (fun s a s' _ h hsep hstep ↦ kept_step h hsep (Sys.step_moves hstep))
    (Sys.owned_of_placed hstart.registered hstart.placed) hstart acts
  constructor
  · exact separate_of_owned h (Sys.step_moves hstep)
  · intro hsep
    have hkept := kept_step h hsep (Sys.step_moves hstep)
    exact Sys.owned_of_placed hkept.registered hkept.placed

/-- A worker has rescheduled its work, and the connection is reported before it lets go of it. -/
theorem not_owned_race : ¬ (system Unit).AllStates Sys.Owned .new
    [.report [.callback], .callback (some 5), .check, .next, .report [.ready 5], .handle, .check,
      .next, .take (), .call (), .reschedule () .write false, .report [.ready 5]] := by
  intro h
  obtain ⟨s, hs, hpending, hjob, hfd⟩ : ∃ s, (system Unit).run .new
      [.report [.callback], .callback (some 5), .check, .next, .report [.ready 5], .handle, .check,
        .next, .take (), .call (), .reschedule () .write false, .report [.ready 5]] = some s ∧
      s.pending = [5] ∧ s.crew.job () = some 0 ∧ (s.works[0]?).map Work.fd = some 5 := by
    refine ⟨_, rfl, ?_⟩
    decide
  have hlast : s.Owned := Machine.AllStates.last _ h hs
  obtain ⟨w, hw, hwfd⟩ := Option.map_eq_some_iff.mp hfd
  exact (hlast.pending 5 (by simp [hpending]) 0 w hw hwfd).2 () hjob

end Filth.Sched
