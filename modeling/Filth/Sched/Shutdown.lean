import Filth.Sched.Lifetimes

/-!
# How a round of the main loop ends

Once a handler has called `Scheduler::halt`, the poison pill finds its way to every worker, the
scheduler falls out of its loop, the pool's destructor and the join of the scheduler return, and
what the round had built is deleted, whatever the order in which the threads take their steps.
-/

namespace Filth.Sched

open Base

variable {n : Nat} {Job : Type}

/-! ### The pill -/

/-- A pill is in the queue or with a worker. -/
def Crew.Pilled (c : Crew (Fin n) Job Tidings) : Prop :=
  (∃ k, (k, none) ∈ c.jobq) ∨ ∃ t k, c.hands t = .took k none

/-- Steps until the worker has retired or waits. -/
def Hands.rank : Hands Job → Nat
  | took _ (some _) => 3
  | waiting => 2
  | took _ none => 1
  | retired => 0

/-- Steps of a scheduler that has been stopped. -/
def Phase.rank : Phase → Nat
  | handling => 3
  | checking => 2
  | waiting => 1
  | retired => 0

/-- What the scheduler and the workers have to do. -/
def Crew.left (c : Crew (Fin n) Job Tidings) : Nat :=
  ∑ t, (c.hands t).rank + 2 * c.jobq.countP (fun x ↦ x.2.isSome) + c.phase.rank

/-- Nobody uses the emergency signals. -/
structure Pool.Calm (p : Pool n) : Prop where
  unyanked : ∀ rest, p.m ≠ some (.yank rest)
  silent : ∀ t, p.pending t = false
  uncaught : p.Uncaught

/-- Not a return from `done.wait()` that nothing has asked for. -/
def ServeAct.drains : ServeAct n Job → Bool
  | .pool .wake => false
  | _ => true

/-- Steps of the main thread until the next test of `_doserve`, or until it has returned. -/
def Station.rank : Station → Nat
  | startPool => 8
  | endPool => 7
  | join => 6
  | delFindwork => 5
  | delScheduler => 4
  | delQueue => 3
  | shutdown => 2
  | test => 1
  | _ => 0

/-- The scheduler and its queue have been built, and nobody uses them yet. -/
def Station.fresh : Station → Bool
  | newFindwork | newScheduler | startup | handlers | startSched | exited => true
  | _ => false

namespace Serving

/-- Who is where, and where the pill is. -/
structure Staffed (s : Serving n Job) : Prop where
  calm : s.pool.Calm
  fresh : s.stage.fresh = true → s.crew = .new
  waiting : s.stage.polls = true → ∀ t, s.pool.life t = .unborn → s.crew.hands t = .waiting
  retired : s.stage.polls = true → ∀ t, s.pool.life t ≠ .unborn → s.pool.life t ≠ .busy →
    (s.crew.hands t).isRetired = true
  halting : ∀ rest, s.sigcb = .halting rest → 0 < s.crew.halting
  pill : s.crew.dowork = false → s.sigcb = .aside → s.crew.Pilled
  served : s.stage = .returned → s.doserve = false

/-- What is left to do in this round. -/
def left (s : Serving n Job) : Nat :=
  s.pool.left + s.crew.left + (if s.sigcb = .aside then 0 else 1) + s.stage.rank

end Serving

/-! ### Steps of the workers and of the pool -/

/-- Where a step of the pool, other than a signal, can have found a thread. -/
theorem Pool.life_step {p q : Pool n} {a : PoolAct n} (ha : ∀ t, a ≠ .interrupt t)
    (hstep : p.step a = some q) (u : Fin n) : (q.life u = .unborn → p.life u = .unborn) ∧
      (q.life u ≠ .unborn → q.life u ≠ .busy →
        p.life u ≠ .unborn ∧ p.life u ≠ .busy ∨ a = .finish u) := by
  have hsame (hq : q.life = p.life) : (q.life u = .unborn → p.life u = .unborn) ∧
      (q.life u ≠ .unborn → q.life u ≠ .busy →
        p.life u ≠ .unborn ∧ p.life u ≠ .busy ∨ a = .finish u) := by
    rw [hq]
    exact ⟨id, fun hl hl' ↦ .inl ⟨hl, hl'⟩⟩
  have hgoto (t : Fin n) (l : Life) (hq : ∀ u, q.life u = if u = t then l else p.life u)
      (hl : l ≠ .unborn) (hpast : l = .busy ∨ (p.life t ≠ .unborn ∧ p.life t ≠ .busy) ∨
        a = .finish t) : (q.life u = .unborn → p.life u = .unborn) ∧
      (q.life u ≠ .unborn → q.life u ≠ .busy →
        p.life u ≠ .unborn ∧ p.life u ≠ .busy ∨ a = .finish u) := by
    rw [hq]
    split
    · next hut =>
      subst hut
      refine ⟨fun hu ↦ absurd hu hl, fun _ hbusy ↦ ?_⟩
      exact hpast.resolve_left hbusy
    · exact ⟨id, fun hl hl' ↦ .inl ⟨hl, hl'⟩⟩
  cases step_moves hstep with
  | start | unlock | destroy | leave | sleep | wake | relock | yank | release => exact hsame rfl
  | @create t rest ho =>
    exact hgoto t .busy (fun u ↦ life_goto _ t u _) nofun (.inl rfl)
  | @finish t hl => exact hgoto t .leaving (fun u ↦ life_goto _ t u _) nofun (.inr (.inr rfl))
  | @enter t hl =>
    exact hgoto t .scanning (fun u ↦ life_goto _ t u _) nofun (.inr (.inl (by simp [hl])))
  | @exit t hl =>
    exact hgoto t .gone (fun u ↦ life_goto _ t u _) nofun (.inr (.inl (by simp [hl])))
  | @find t hl =>
    exact hgoto t .found (fun u ↦ life_goto _ t u _) nofun (.inr (.inl (by simp [hl])))
  | @miss t hl =>
    exact hgoto t .erased (fun u ↦ life_goto _ t u _) nofun (.inr (.inl (by simp [hl])))
  | @remove t hl =>
    exact hgoto t .removed (fun u ↦ life_goto _ t u _) nofun (.inr (.inl (by simp [hl])))
  | @notify t hl =>
    refine hgoto t .erased (fun u ↦ ?_) nofun (.inr (.inl (by simp [hl])))
    rw [life_goto, life_notify]
  | kill =>
    refine hsame ?_
    unfold Pool.send
    split <;> rfl
  | interrupt | caught => exact absurd rfl (ha _)

/-- Without the emergency signals a pool stays calm. -/
theorem Pool.Calm.step {p q : Pool n} {a : PoolAct n} (h : p.Calm) (ha : a ≠ .yank)
    (hstep : p.step a = some q) : q.Calm := by
  have hkept (hm : ∀ rest, q.m ≠ some (.yank rest)) (hpending : q.pending = p.pending)
      (hlife : ∀ t, q.life t = .caught → p.life t = .caught) : q.Calm :=
    ⟨hm, fun t ↦ hpending ▸ h.silent t, fun t ht ↦ h.uncaught t (hlife t ht)⟩
  have hgoto {r : Pool n} (hr : r.life = p.life) {t : Fin n} {l : Life} (hl : l ≠ .caught)
      (u : Fin n) (hu : (r.goto t l).life u = .caught) : p.life u = .caught := by
    rw [life_goto, hr] at hu
    split at hu
    · exact absurd hu hl
    · exact hu
  cases step_moves hstep with
  | start | destroy | relock => exact hkept nofun rfl fun _ ↦ id
  | unlock | leave | sleep => exact hkept nofun rfl fun _ ↦ id
  | wake => exact hkept h.unyanked rfl fun _ ↦ id
  | create ho => exact hkept h.unyanked rfl (hgoto rfl nofun)
  | finish hl => exact hkept h.unyanked rfl (hgoto rfl nofun)
  | enter hl => exact hkept nofun rfl (hgoto rfl nofun)
  | exit hl => exact hkept nofun rfl (hgoto rfl nofun)
  | find hl => exact hkept h.unyanked rfl (hgoto rfl nofun)
  | miss hl => exact hkept h.unyanked rfl (hgoto rfl nofun)
  | remove hl => exact hkept h.unyanked rfl (hgoto rfl nofun)
  | @notify t hl =>
    refine hkept ?_ ?_ (hgoto (life_notify _) nofun)
    · change ∀ rest, p.notify.m ≠ _
      rw [m_notify]
      exact h.unyanked
    · change p.notify.pending = _
      unfold Pool.notify
      split <;> rfl
  | yank => exact absurd rfl ha
  | kill hm => exact absurd hm (h.unyanked _)
  | release hm => exact absurd hm (h.unyanked _)
  | interrupt hpending => exact nomatch (h.silent _).symm.trans hpending
  | caught hpending => exact nomatch (h.silent _).symm.trans hpending

/-- A pill does not get lost. -/
theorem Crew.Pilled.step {c c' : Crew (Fin n) Job Tidings} {a : CrewAct (Fin n) Job Tidings}
    (h : c.Pilled) (hstep : c.step a = some c') : c'.Pilled := by
  have henq (c : Crew (Fin n) Job Tidings) (job : Option Job) (hc : c.Pilled) :
      (c.enq job).Pilled := by
    rcases hc with ⟨k, hk⟩ | hhands
    · exact .inl ⟨k, List.mem_append_left _ hk⟩
    · exact .inr hhands
  cases step_moves hstep with
  | aside hq hh =>
    unfold Pilled
    rw [hq, hh]
    exact h
  | @handle w batch => exact henq { c with phase := .checking, batch } (some w) h
  | pill => exact henq c none h
  | @take t k job jobq hw hq =>
    rcases h with ⟨k', hk'⟩ | ⟨u, k', hu⟩
    · rw [hq] at hk'
      rcases List.mem_cons.mp hk' with heq | hrest
      · cases heq
        exact .inr ⟨t, k, Function.update_self _ _ _⟩
      · exact .inl ⟨k', hrest⟩
    · refine .inr ⟨u, k', ?_⟩
      exact Hands.update _ hu hw nofun
  | @putBack t k ht => exact .inl ⟨c.enqueued.length, List.mem_append_right _ (by simp)⟩
  | @execute t k w ht =>
    rcases h with hk | ⟨u, k', hu⟩
    · exact .inl hk
    · refine .inr ⟨u, k', ?_⟩
      exact Hands.update _ hu ht nofun

/-- Only its own steps change what a worker has. -/
theorem Crew.hands_step {c c' : Crew (Fin n) Job Tidings} {a : CrewAct (Fin n) Job Tidings}
    (hstep : c.step a = some c') (u : Fin n) :
    c'.hands u = c.hands u ∨ a = .take u ∨ a = .putBack u ∨ a = .execute u := by
  have hgoto (t : Fin n) (hands : Hands Job) (ha : a = .take t ∨ a = .putBack t ∨ a = .execute t) :
      Function.update c.hands t hands u = c.hands u ∨ a = .take u ∨ a = .putBack u ∨
        a = .execute u := by
    by_cases hut : u = t
    · subst hut
      exact .inr ha
    · exact .inl (Function.update_of_ne hut _ _)
  cases step_moves hstep with
  | aside hq hh => exact .inl (congrFun hh u)
  | handle | pill => exact .inl rfl
  | @take t => exact hgoto t _ (.inl rfl)
  | @putBack t => exact hgoto t _ (.inr (.inl rfl))
  | @execute t => exact hgoto t _ (.inr (.inr rfl))

/-- A worker goes on. -/
theorem Crew.left_update (c : Crew (Fin n) Job Tidings) (t : Fin n) (hands : Hands Job) :
    ({ c with hands := Function.update c.hands t hands } : Crew (Fin n) Job Tidings).left +
      (c.hands t).rank = c.left + hands.rank := by
  have hsum := sum_update Hands.rank c.hands t hands
  unfold left
  dsimp only
  omega

private theorem Crew.left_enq (c : Crew (Fin n) Job Tidings) : (c.enq none).left = c.left := by
  unfold left enq
  simp

namespace Serving

variable {cfg : ServeConfig} {s s' : Serving n Job}

/-- The steps of the pool that there are here. -/
theorem allows_cases {st : Station} {a : PoolAct n} (ha : st.allows a = true) :
    a = .wake ∨ a.drains = true := by
  cases a with
  | yank | kill | release | interrupt t => cases st <;> cases ha
  | wake => exact .inl rfl
  | _ => exact .inr rfl

/-- Where there is a scheduler thread, nothing is new. -/
theorem fresh_of_polls {st : Station} (h : st.polls = true) : st.fresh = false := by
  cases st <;> first | rfl | cases h

theorem allows_worker {u : Fin n} {a : CrewAct (Fin n) Job Tidings} (ha : s.allows a = true)
    (hu : a = .take u ∨ a = .putBack u ∨ a = .execute u) : s.pool.life u = .busy := by
  rcases hu with rfl | rfl | rfl <;> simpa [Serving.allows] using ha

/-- Who takes a step has been started. -/
private theorem Sound.not_fresh_of_allows (h : s.Sound) {a : CrewAct (Fin n) Job Tidings}
    (ha : s.allows a = true) : s.stage.fresh = false := by
  cases a with
  | take t | putBack t | execute t =>
    rcases h.stage_of_busy (t := t) (by simpa [Serving.allows] using ha) with hs | hs <;>
    · rw [hs]
      rfl
  | halt | pill => cases ha
  | handle job =>
    simp only [Serving.allows, Bool.and_eq_true] at ha
    exact fresh_of_polls ha.1.1
  | report events | check | next | leave =>
    simp only [Serving.allows, Bool.and_eq_true] at ha
    exact fresh_of_polls ha.1

/-- The main thread gets to another place. -/
theorem Staffed.pass (hs : s.Staffed) {alive : Resource → Bool} {handlers : Int → Option Handler}
    {st : Station} (hfresh : st.fresh = false) (hpolls : st.polls = false ∨ s.stage.polls = true)
    (hserved : st ≠ .returned ∨ s.doserve = false) :
    ({ s with alive, handlers, stage := st } : Serving n Job).Staffed where
  calm := hs.calm
  fresh hf := nomatch hfresh.symm.trans hf
  waiting hp := hs.waiting (hpolls.resolve_left (by simp [show st.polls = true from hp]))
  retired hp := hs.retired (hpolls.resolve_left (by simp [show st.polls = true from hp]))
  halting := hs.halting
  pill := hs.pill
  served hst := hserved.resolve_left (not_not.mpr hst)

/-- A new crew, before the pool is there. -/
theorem Staffed.anew (hcalm : s.pool.Calm) (hcrew : s.crew = .new) (haside : s.sigcb = .aside)
    (hpolls : s.stage.polls = false) (hserved : s.stage ≠ .returned) : s.Staffed where
  calm := hcalm
  fresh _ := hcrew
  waiting hp := nomatch hpolls.symm.trans hp
  retired hp := nomatch hpolls.symm.trans hp
  halting _ hr := nomatch haside.symm.trans hr
  pill hd := by
    rw [hcrew] at hd
    cases hd
  served hst := absurd hst hserved

private theorem Pool.calm_new (n : Nat) : (Pool.new n).Calm := ⟨nofun, fun _ ↦ rfl, nofun⟩

/-- The main thread goes on: the workers that it creates have done nothing yet. -/
theorem Staffed.main (h : s.Sound) (hs : s.Staffed) (hstep : s.main cfg = some s') :
    s'.Staffed := by
  have haside (hpolls : s.stage.polls = false) : s.sigcb = .aside := by
    by_contra hne
    exact nomatch hpolls.symm.trans (h.sigcb hne).2
  have hcrew := hs.fresh
  have hfits := h.owner
  cases hst : s.stage with
  | test =>
    simp only [Serving.main, hst] at hstep
    cases hstep
    split
    · exact hs.pass rfl (.inl rfl) (.inl (by decide))
    · next hd => exact hs.pass rfl (.inl rfl) (.inr (by simpa using hd))
  | newQueue =>
    rw [hst] at haside
    simp only [Serving.main, hst] at hstep
    cases hstep
    exact .anew hs.calm rfl (haside rfl) rfl (by simp)
  | newFindwork =>
    rw [hst] at haside hcrew
    simp only [Serving.main, hst] at hstep
    cases hstep
    exact .anew hs.calm (hcrew rfl) (haside rfl) rfl (by simp)
  | newScheduler =>
    rw [hst] at hcrew
    simp only [Serving.main, hst] at hstep
    cases hstep
    exact .anew hs.calm (hcrew rfl) rfl rfl (by simp)
  | startup =>
    rw [hst] at haside hcrew
    simp only [Serving.main, hst] at hstep
    cases hstep
    unfold pushSighandler
    split <;> exact .anew hs.calm (hcrew rfl) (haside rfl) rfl (by simp)
  | handlers =>
    rw [hst] at haside hcrew
    simp only [Serving.main, hst] at hstep
    cases hstep
    obtain ⟨handlers, stage, heq⟩ := foldl_pushSighandler cfg.haltsigs s
    rw [heq]
    exact .anew (Pool.calm_new n) (hcrew rfl) (haside rfl) rfl (by simp)
  | startSched =>
    rw [hst] at haside hcrew hfits
    simp only [Serving.main, hst] at hstep
    cases hstep
    have hready : s.pool.owner = .ready := by
      cases ho : s.pool.owner <;> rw [ho] at hfits <;> first | rfl | cases hfits
    have hunborn (t : Fin n) : s.pool.life t = .unborn := by
      rw [h.pool.unborn, hready]
      exact List.mem_finRange t
    refine ⟨hs.calm, fun hf ↦ ?_, fun _ t _ ↦ ?_, fun _ t ht ↦ absurd (hunborn t) ht, hs.halting,
      hs.pill, fun hserved ↦ ?_⟩
    · cases hf
    · change s.crew.hands t = .waiting
      rw [hcrew rfl]
      rfl
    · cases hserved
  | startPool | endPool =>
    simp only [Serving.main, hst] at hstep
    split at hstep
    · cases hstep
      exact hs.pass rfl (.inr (by rw [hst]; rfl)) (.inl (by decide))
    · cases hstep
  | join =>
    simp only [Serving.main, hst] at hstep
    split at hstep
    · cases hstep
      exact hs.pass rfl (.inl rfl) (.inl (by decide))
    · cases hstep
  | delFindwork | delScheduler | delQueue | shutdown =>
    simp only [Serving.main, hst] at hstep
    cases hstep
    exact hs.pass rfl (.inl rfl) (.inl (by decide))
  | returned | exited =>
    simp only [Serving.main, hst] at hstep
    cases hstep

/-- All of this stays true. -/
theorem Staffed.step {a : ServeAct n Job} (h : s.Sound) (hs : s.Staffed)
    (hstep : s.step cfg a = some s') : s'.Staffed := by
  have hnew {crew : Crew (Fin n) Job Tidings} (hpolls : s.stage.polls = true)
      (hfresh : s.stage.fresh = true) : crew = .new :=
    nomatch (fresh_of_polls hpolls).symm.trans hfresh
  cases step_moves hstep with
  | main hmain => exact hs.main h hmain
  | @pool a pool ha hretired hp =>
    have hint (t : Fin n) : a ≠ .interrupt t := by
      rintro rfl
      rcases allows_cases ha with heq | hdrains
      · cases heq
      · cases hdrains
    have hyank : a ≠ .yank := by
      rintro rfl
      rcases allows_cases ha with heq | hdrains
      · cases heq
      · cases hdrains
    refine ⟨hs.calm.step hyank hp, hs.fresh, fun hpolls t ht ↦ ?_, fun hpolls t ht ht' ↦ ?_,
      hs.halting, hs.pill, hs.served⟩
    · exact hs.waiting hpolls t ((Pool.life_step hint hp t).1 ht)
    · rcases (Pool.life_step hint hp t).2 ht ht' with hl | rfl
      · exact hs.retired hpolls t hl.1 hl.2
      · exact hretired t rfl
  | @crew a crew ha hc =>
    have hhands (u : Fin n) (hu : s.pool.life u ≠ .busy) : crew.hands u = s.crew.hands u :=
      (Crew.hands_step hc u).resolve_right fun hown ↦ hu (allows_worker ha hown)
    obtain ⟨hdowork, hhalting, -⟩ := crew_step ha hc
    refine ⟨hs.calm, fun hfresh ↦ ?_, fun hpolls t ht ↦ ?_, fun hpolls t ht ht' ↦ ?_,
      fun rest hr ↦ ?_, fun hd haside ↦ ?_, hs.served⟩
    · exact nomatch (h.not_fresh_of_allows ha).symm.trans hfresh
    · change crew.hands t = _
      rw [hhands t (by rw [show s.pool.life t = .unborn from ht]; nofun)]
      exact hs.waiting hpolls t ht
    · change (crew.hands t).isRetired = true
      rw [hhands t ht']
      exact hs.retired hpolls t ht ht'
    · exact hhalting.symm ▸ hs.halting rest hr
    · exact (hs.pill (hdowork.symm.trans hd) haside).step hc
  | read hb hphase hpolls haside =>
    exact ⟨hs.calm, hnew hpolls, hs.waiting, hs.retired, nofun, nofun, hs.served⟩
  | halt hloop | flush hloop =>
    have hpolls := (h.sigcb (by rw [hloop]; nofun)).2
    refine ⟨hs.calm, hnew hpolls, hs.waiting, hs.retired, fun _ _ ↦ Nat.succ_pos _, nofun,
      fun hst ↦ ?_⟩
    rw [show s.stage = .returned from hst] at hpolls
    cases hpolls
  | @ignore sig rest hloop =>
    obtain ⟨hdowork, -⟩ := h.doserve_of_loop hloop
    refine ⟨hs.calm, hs.fresh, hs.waiting, hs.retired, fun rest' hr ↦ ?_, fun hd ↦ ?_, hs.served⟩
    · rw [hdowork] at hr
      cases hr
    · exact nomatch hdowork.symm.trans hd
  | @pill rest hhalting hpos =>
    have hpolls := (h.sigcb (by rw [hhalting]; nofun)).2
    exact ⟨hs.calm, hnew hpolls, hs.waiting, hs.retired, nofun,
      fun _ _ ↦ .inl ⟨s.crew.enqueued.length, List.mem_append_right _ (by simp)⟩, hs.served⟩
  | back hloop =>
    obtain ⟨hdowork, -⟩ := h.doserve_of_loop hloop
    refine ⟨hs.calm, hs.fresh, hs.waiting, hs.retired, nofun, fun hd ↦ ?_, hs.served⟩
    cases hdowork.symm.trans hd

/-! ### The end comes nearer -/

/-- The round is to end. -/
structure Ending (s : Serving n Job) : Prop where
  sound : s.Sound
  staffed : s.Staffed
  dowork : s.crew.dowork = false
  prepares : s.stage.prepares = false

/-- The round has ended. -/
def Ended (s : Serving n Job) : Prop := s.stage = if s.doserve then .test else .returned

private theorem left_main (h : s.Ending) (hne : ¬ s.Ended) (hstep : s.main cfg = some s') :
    s'.crew.dowork = false ∧ s'.stage.prepares = false ∧ s'.left < s.left := by
  have hprep := h.prepares
  have hgo (alive : Resource → Bool) {st : Station} (hprep : st.prepares = false)
      (hrank : st.rank < s.stage.rank) :
      let s' : Serving n Job := { s with alive, stage := st }
      s'.crew.dowork = false ∧ s'.stage.prepares = false ∧ s'.left < s.left := by
    refine ⟨h.dowork, hprep, ?_⟩
    unfold left
    dsimp only
    omega
  cases hst : s.stage with
  | test =>
    simp only [Serving.main, hst] at hstep
    cases hstep
    cases hd : s.doserve with
    | true =>
      refine absurd ?_ hne
      rw [Ended, hst, hd]
      rfl
    | false => exact hgo s.alive rfl (by rw [hst]; decide)
  | startPool | endPool | join =>
    simp only [Serving.main, hst] at hstep
    split at hstep
    · cases hstep
      exact hgo _ rfl (by rw [hst]; decide)
    · cases hstep
  | delFindwork | delScheduler | delQueue | shutdown =>
    simp only [Serving.main, hst] at hstep
    cases hstep
    exact hgo _ rfl (by rw [hst]; decide)
  | returned =>
    simp only [Serving.main, hst] at hstep
    cases hstep
  | _ =>
    rw [hst] at hprep
    cases hprep

/-- Of a scheduler that has been stopped nothing new comes. -/
private theorem Ending.left_crew (h : s.Ending) {a : CrewAct (Fin n) Job Tidings}
    {c : Crew (Fin n) Job Tidings} (ha : s.allows a = true) (hstep : s.crew.step a = some c) :
    c.left < s.crew.left := by
  have hstop := (h.sound.stopped h.dowork).1
  cases a with
  | report events =>
    simp only [Crew.step, h.dowork] at hstep
    simp at hstep
  | handle job =>
    simp only [Crew.step] at hstep
    split at hstep
    · next hp _ => exact absurd hp hstop
    · cases hstep
  | check =>
    simp only [Crew.step, h.dowork] at hstep
    split at hstep
    · next hp =>
      cases hstep
      simp only [Crew.left, hp, Phase.rank, Bool.false_eq_true, if_false]
      omega
    · cases hstep
  | next =>
    simp only [Crew.step] at hstep
    split at hstep
    · next hp => exact absurd hp.1 hstop
    · cases hstep
  | leave =>
    simp only [Crew.step] at hstep
    split at hstep
    · next hp =>
      cases hstep
      simp only [Crew.left, hp.1, Phase.rank]
      omega
    · cases hstep
  | halt | pill => cases ha
  | take t =>
    simp only [Crew.step] at hstep
    split at hstep
    · next k job jobq hw hq =>
      cases hstep
      have hupdate := Crew.left_update { s.crew with jobq } t (.took k job)
      cases job with
      | none =>
        simp only [hw, Hands.rank] at hupdate
        simp only [Crew.left, hq, List.countP_cons] at hupdate ⊢
        simp only [Option.isSome_none, Bool.false_eq_true, if_false]
        omega
      | some w =>
        simp only [hw, Hands.rank] at hupdate
        simp only [Crew.left, hq, List.countP_cons] at hupdate ⊢
        simp only [Option.isSome_some, if_true]
        omega
    · cases hstep
  | putBack t =>
    simp only [Crew.step] at hstep
    split at hstep
    · next k ht =>
      cases hstep
      have hupdate := Crew.left_update (s.crew.enq none) t .retired
      rw [Crew.left_enq, show (s.crew.enq none).hands t = _ from ht] at hupdate
      simp only [Hands.rank] at hupdate
      exact Nat.lt_of_succ_le (Nat.le_of_eq hupdate)
    · cases hstep
  | execute t =>
    simp only [Crew.step] at hstep
    split at hstep
    · next k w ht =>
      cases hstep
      have hupdate := Crew.left_update s.crew t .waiting
      simp only [ht, Hands.rank] at hupdate
      simp only [Crew.left] at hupdate ⊢
      omega
    · cases hstep

/-- Every step leads nearer to the end of the round, unless the main thread is woken up for
nothing. -/
theorem Ending.step {a : ServeAct n Job} (h : s.Ending) (hne : ¬ s.Ended)
    (hdrains : a.drains = true) (hstep : s.step cfg a = some s') :
    s'.Ending ∧ s'.doserve = s.doserve ∧ s'.left < s.left := by
  have hsound := h.sound.step hstep
  have hstaffed := h.staffed.step h.sound hstep
  have hstop := h.sound.stopped h.dowork
  cases step_moves hstep with
  | main hmain =>
    obtain ⟨hdowork, hprep, hlt⟩ := left_main h hne hmain
    exact ⟨⟨hsound, hstaffed, hdowork, hprep⟩, (h.sound.main_frame hmain).2.1, hlt⟩
  | @pool a pool ha hretired hp =>
    refine ⟨⟨hsound, hstaffed, h.dowork, h.prepares⟩, rfl, ?_⟩
    have hpool : a.drains = true := by
      rcases allows_cases ha with rfl | hpool
      · cases hdrains
      · exact hpool
    have hlt := Pool.left_lt_of_drains h.sound.pool hpool hp
    unfold left
    dsimp only
    omega
  | @crew a crew ha hc =>
    refine ⟨⟨hsound, hstaffed, (crew_step ha hc).1.trans h.dowork, h.prepares⟩, rfl, ?_⟩
    have hlt := h.left_crew ha hc
    unfold left
    dsimp only
    omega
  | read _ hphase => exact absurd hphase hstop.1
  | halt hloop | flush hloop | ignore hloop | back hloop => exact absurd hloop (hstop.2 _)
  | @pill rest hhalting hpos =>
    refine ⟨⟨hsound, hstaffed, h.dowork, h.prepares⟩, rfl, ?_⟩
    have hleft : ({ s.crew.enq none with halting := s.crew.halting - 1 } :
        Crew (Fin n) Job Tidings).left = s.crew.left := Crew.left_enq s.crew
    unfold left
    dsimp only
    rw [hleft, hhalting, if_pos rfl, if_neg (by simp)]
    omega

/-- While a worker is busy, or the scheduler in a handler, one of the threads can go on. -/
private theorem Ending.goesOn_of_busy (h : s.Ending) {t : Fin n} (ht : s.pool.life t = .busy) :
    ∃ a : ServeAct n Job, a.drains = true ∧ (s.step cfg a).isSome := by
  have hpolls : s.stage.polls = true := by
    rcases h.sound.stage_of_busy ht with hs | hs <;>
    · rw [hs]
      rfl
  have hputBack {u : Fin n} {k : Nat} (hl : s.pool.life u = .busy)
      (hu : s.crew.hands u = .took k none) : (s.step cfg (.crew (.putBack u))).isSome := by
    simp [Serving.step, Serving.allows, hl, Crew.step, hu]
  cases hhands : s.crew.hands t with
  | retired =>
    exact ⟨.pool (.finish t), rfl, by
      simp [Serving.step, hhands, Hands.isRetired, Pool.step, ht]⟩
  | took k job =>
    cases job with
    | none => exact ⟨.crew (.putBack t), rfl, hputBack ht hhands⟩
    | some w =>
      exact ⟨.crew (.execute t), rfl, by
        simp [Serving.step, Serving.allows, ht, Crew.step, hhands]⟩
  | waiting =>
    cases hq : s.crew.jobq with
    | cons x jobq =>
      exact ⟨.crew (.take t), rfl, by
        simp [Serving.step, Serving.allows, ht, Crew.step, hhands, hq]⟩
    | nil =>
      cases hsig : s.sigcb with
      | loop rest => exact absurd hsig ((h.sound.stopped h.dowork).2 _)
      | halting rest =>
        exact ⟨.pill, rfl, by
          simp [Serving.step, hsig, Crew.step, h.staffed.halting rest hsig]⟩
      | aside =>
        -- the pill is with a worker, who has been created and has not retired
        rcases h.staffed.pill h.dowork hsig with ⟨k, hk⟩ | ⟨u, k, hu⟩
        · rw [hq] at hk
          cases hk
        · refine ⟨.crew (.putBack u), rfl, hputBack ?_ hu⟩
          by_contra hl
          have hborn : s.pool.life u ≠ .unborn := by
            intro hborn
            cases hu.symm.trans (h.staffed.waiting hpolls u hborn)
          have hretired := h.staffed.retired hpolls u hborn hl
          rw [hu] at hretired
          cases hretired

/-- While the main thread is in the pool, one of the threads can go on: the owner is where it can be
at this place. -/
theorem Ending.goesOn_of_pool (h : s.Ending) (hout : s.pool.owner ≠ .out)
    (hstage : s.stage = .startPool ∧ s.pool.owner ≠ .started ∨ s.stage = .endPool) :
    ∃ a : ServeAct n Job, a.drains = true ∧ (s.step cfg a).isSome := by
  obtain ⟨a, hdrains, hsome⟩ := h.sound.pool.goesOn h.staffed.calm.uncaught hout
  obtain ⟨p, hp⟩ := Option.isSome_iff_exists.mp hsome
  have hfits := h.sound.owner
  have hallowed (ha : s.stage.allows a = true) (hfinish : ∀ t, a ≠ .finish t) :
      ∃ a : ServeAct n Job, a.drains = true ∧ (s.step cfg a).isSome := by
    refine ⟨.pool a, ?_, ?_⟩
    · cases a <;> first | rfl | cases hdrains
    · cases a with
      | finish t => exact absurd rfl (hfinish t)
      | _ => simpa [Serving.step, ha] using hsome
  cases Pool.step_moves hp with
  | finish hl => exact h.goesOn_of_busy hl
  | enter | find | miss | remove | notify | exit =>
    refine hallowed ?_ (by simp)
    cases s.stage <;> rfl
  | start ho | create ho | unlock ho =>
    refine hallowed ?_ (by simp)
    rcases hstage with ⟨hst, -⟩ | hst
    · rw [hst]
      rfl
    · rw [hst, ho] at hfits
      cases hfits
  | leave ho | sleep ho | relock ho =>
    refine hallowed ?_ (by simp)
    rcases hstage with ⟨hst, -⟩ | hst
    · rw [hst, ho] at hfits
      cases hfits
    · rw [hst]
      rfl
  | destroy ho =>
    refine hallowed ?_ (by simp)
    rcases hstage with ⟨-, hne⟩ | hst
    · exact absurd ho hne
    · rw [hst]
      rfl
  | kill hm | release hm => exact absurd hm (h.staffed.calm.unyanked _)
  | wake | yank | interrupt | caught => cases hdrains

/-- Until the round has ended, somebody can go on. -/
theorem Ending.goesOn (h : s.Ending) (hne : ¬ s.Ended) :
    ∃ a : ServeAct n Job, a.drains = true ∧ (s.step cfg a).isSome := by
  have hprep := h.prepares
  have hfits := h.sound.owner
  have hmain (hs : (s.main cfg).isSome) :
      ∃ a : ServeAct n Job, a.drains = true ∧ (s.step cfg a).isSome := ⟨.main, rfl, hs⟩
  cases hst : s.stage with
  | test | delFindwork | delScheduler | delQueue | shutdown =>
    exact hmain (by simp [Serving.main, hst])
  | returned =>
    refine absurd ?_ hne
    rw [Ended, hst, h.staffed.served hst]
    rfl
  | startPool =>
    by_cases ho : s.pool.owner = .started
    · exact hmain (by simp [Serving.main, hst, ho])
    · refine h.goesOn_of_pool (fun hout ↦ ?_) (.inl ⟨hst, ho⟩)
      rw [hst, hout] at hfits
      cases hfits
  | endPool =>
    by_cases ho : s.pool.owner = .out
    · exact hmain (by simp [Serving.main, hst, ho])
    · exact h.goesOn_of_pool ho (.inr hst)
  | join =>
    have hstop := h.sound.stopped h.dowork
    cases hsig : s.sigcb with
    | loop rest => exact absurd hsig (hstop.2 _)
    | halting rest =>
      exact ⟨.pill, rfl, by simp [Serving.step, hsig, Crew.step, h.staffed.halting rest hsig]⟩
    | aside =>
      cases hphase : s.crew.phase with
      | handling => exact absurd hphase hstop.1
      | checking =>
        exact ⟨.crew .check, rfl, by
          simp [Serving.step, Serving.allows, hst, Station.polls, hsig, Crew.step, hphase]⟩
      | waiting =>
        exact ⟨.crew .leave, rfl, by
          simp [Serving.step, Serving.allows, hst, Station.polls, hsig, Crew.step, hphase,
            h.dowork]⟩
      | retired => exact hmain (by simp [Serving.main, hst, hphase])
  | _ =>
    rw [hst] at hprep
    cases hprep

/-- At the start nobody is there. -/
theorem staffed_new (n : Nat) (Job : Type) : (new n Job).Staffed where
  calm := Pool.calm_new n
  fresh := nofun
  waiting := nofun
  retired := nofun
  halting := nofun
  pill := nofun
  served := nofun

end Serving

section Runs

variable {cfg : ServeConfig} {n : Nat} {Job : Type} {s t : Serving n Job}
  {acts : List (ServeAct n Job)}

private theorem Serving.staffed_of_reachable (h : (serving cfg n Job).Reachable s) : s.Staffed := by
  have hboth := Machine.invariant (serving cfg n Job)
    (P := fun s ↦ s.Sound ∧ s.Staffed) ⟨Serving.sound_new n Job, Serving.staffed_new n Job⟩
    (fun _ _ _ hs hstep ↦ ⟨hs.1.step hstep, hs.2.step hs.1 hstep⟩) h
  exact hboth.2

/-- For any number of workers, with any jobs in the queue and any interleaving: once the scheduler
has been halted, the round comes to its end, and with it the loop if the server is to end. Whatever
is done gets there, or it has not been for long and somebody can go on. -/
theorem comesDown_of_halted (h : (serving cfg n Job).Reachable s) (hdowork : s.crew.dowork = false)
    (hprepares : s.stage.prepares = false) (hdrains : ∀ a ∈ acts, a.drains = true)
    (hrun : (serving cfg n Job).run s acts = some t) :
    (∃ pre u, pre <+: acts ∧ (serving cfg n Job).run s pre = some u ∧
      u.stage = if s.doserve then .test else .returned) ∨
    acts.length ≤ s.left ∧ ∃ a : ServeAct n Job, a.drains = true ∧ (t.step cfg a).isSome := by
  have hending : s.Ending :=
    ⟨Serving.sound_of_reachable h, Serving.staffed_of_reachable h, hdowork, hprepares⟩
  have hended {u : Serving n Job} (hserve : u.doserve = s.doserve)
      (hne : ¬ u.stage = if s.doserve then .test else .returned) : ¬ u.Ended := by
    rwa [Serving.Ended, hserve]
  rcases Machine.passes_of_progress (serving cfg n Job)
    (J := fun u ↦ u.Ending ∧ u.doserve = s.doserve)
    (G := fun u ↦ u.stage = if s.doserve then .test else .returned)
    (D := fun a ↦ a.drains = true) (μ := Serving.left)
    (fun u a u' hu hne ha hstep ↦ by
      obtain ⟨hending, hserve, hlt⟩ := hu.1.step (hended hu.2 hne) ha hstep
      exact ⟨⟨hending, hserve.trans hu.2⟩, hlt⟩)
    (fun u hu hne ↦ hu.1.goesOn (hended hu.2 hne)) ⟨hending, rfl⟩ hdrains hrun with
    hpast | ⟨hlen, hnext⟩
  · exact .inl hpast
  · exact .inr ⟨by omega, hnext⟩

/-- A server with one worker, which a signal is to end, in the handler of the signal. -/
def signalled : Serving 1 Unit :=
  ((serving usual 1 Unit).run (.new 1 Unit) [.main, .main, .main, .main, .main, .main, .main,
    .pool .start, .crew (.report [.signals [2]]), .read, .signal]).getD (.new 1 Unit)

theorem comesDown_of_halted_signalled : ∃ t : Serving 1 Unit,
    (∃ pre u, pre <+: [.pill, .pool .create] ∧ (serving usual 1 Unit).run signalled pre = some u ∧
      u.stage = .returned) ∨
    2 ≤ signalled.left ∧ ∃ a : ServeAct 1 Unit, a.drains = true ∧ (t.step usual a).isSome :=
  ⟨_, comesDown_of_halted (n := 1) (s := signalled)
    ⟨[.main, .main, .main, .main, .main, .main, .main, .pool .start,
      .crew (.report [.signals [2]]), .read, .signal], rfl⟩ rfl rfl
    (by decide : ∀ a ∈ [ServeAct.pill, .pool .create], a.drains = true) rfl⟩

end Runs

end Filth.Sched
