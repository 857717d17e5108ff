import Filth.Sched.Serving

/-!
# What the main loop builds, and the signals it hears

Everything that a round of the main loop builds is there as long as anybody uses it, and is deleted
before it is built again. The signals that a handler leaves unread in its own batch are lost.
-/

namespace Filth.Sched

open Base

/-- What there is when the main thread is at this place. -/
def Station.owns : Station → Resource → Bool
  | newFindwork, .jobq | newScheduler, .jobq | newScheduler, .findwork => true
  | startup, .jobq | startup, .findwork | startup, .sch => true
  | handlers, _ | startSched, _ | startPool, _ | endPool, _ | join, _ | delFindwork, _ => true
  | exited, _ => true
  | delScheduler, .jobq | delScheduler, .sch | delScheduler, .cache => true
  | delQueue, .jobq | delQueue, .cache | shutdown, .cache => true
  | _, _ => false

/-- Where the owner of the pool can be when the main thread is at this place. -/
def Station.fits {n : Nat} : Station → Owner n → Bool
  | startSched, .ready => true
  | startPool, .ready | startPool, .starting _ | startPool, .started => true
  | endPool, .started | endPool, .testing | endPool, .asleep | endPool, .woken | endPool, .out =>
    true
  | startSched, _ | startPool, _ | endPool, _ => false
  | _, .ready | _, .out => true
  | _, _ => false

/-- There is a pool at this place. -/
def Station.pooled : Station → Bool
  | startSched | startPool | endPool => true
  | _ => false

/-- The next round is being prepared. -/
def Station.prepares : Station → Bool
  | newQueue | newFindwork | newScheduler | startup | handlers | startSched | exited => true
  | _ => false

/-- What a step uses. -/
def ServeAct.uses {n : Nat} {Job : Type} (s : Serving n Job) : ServeAct n Job → List Resource
  | .main =>
    match s.stage with
    | .newScheduler => [.jobq, .findwork]
    | .startup | .handlers | .startSched | .delScheduler => [.sch]
    | .delFindwork => [.findwork]
    | .delQueue => [.jobq]
    | .shutdown => [.cache]
    | _ => []
  | .pool _ => []
  | .crew a =>
    match a with
    | .take _ | .putBack _ => [.jobq]
    | .execute _ => [.sch, .findwork, .cache]
    | .handle _ => [.sch, .findwork, .jobq]
    | _ => [.sch]
  | .read | .back => [.sch]
  | .signal => [.sch, .cache]
  | .pill => [.sch, .jobq]

/-- What a step builds. -/
def ServeAct.builds {n : Nat} {Job : Type} (s : Serving n Job) : ServeAct n Job → Option Resource
  | .main =>
    match s.stage with
    | .newQueue => some .jobq
    | .newFindwork => some .findwork
    | .newScheduler => some .sch
    | .startup => some .cache
    | _ => none
  | _ => none

namespace Serving

variable {n : Nat} {Job : Type} {cfg : ServeConfig} {s s' : Serving n Job}

/-- What is true in all states. -/
structure Sound (s : Serving n Job) : Prop where
  alive : s.alive = s.stage.owns
  pool : s.pool.Sound
  owner : s.stage.fits s.pool.owner = true
  sigcb : s.sigcb ≠ .aside → s.crew.phase = .checking ∧ s.stage.polls = true
  stopped : s.crew.dowork = false → s.crew.phase ≠ .handling ∧ ∀ rest, s.sigcb ≠ .loop rest
  halted : s.doserve = false → s.crew.dowork = false ∧ s.stage.prepares = false

/-- A worker has something to do only while the main thread is in the pool. -/
theorem Sound.stage_of_busy (h : s.Sound) {t : Fin n} (ht : s.pool.life t = .busy) :
    s.stage = .startPool ∨ s.stage = .endPool := by
  have hfits := h.owner
  have hready : s.pool.owner ≠ .ready := by
    intro ho
    have hunborn := (h.pool.unborn t).mpr (by rw [ho]; exact List.mem_finRange t)
    cases ht.symm.trans hunborn
  have hout : s.pool.owner ≠ .out := by
    intro ho
    have hmem := h.pool.listed t (.inr ht)
    rw [h.pool.out ho] at hmem
    cases hmem
  cases hs : s.stage with
  | startPool => exact .inl rfl
  | endPool => exact .inr rfl
  | _ =>
    rw [hs] at hfits
    cases ho : s.pool.owner with
    | ready => exact absurd ho hready
    | out => exact absurd ho hout
    | _ =>
      rw [ho] at hfits
      cases hfits

/-- The main thread and the threads of the pool keep to their places. -/
private theorem fits_step {p q : Pool n} {st : Station} {a : PoolAct n} (ha : st.allows a = true)
    (hfits : st.fits p.owner = true) (hstep : p.step a = some q) : st.fits q.owner = true := by
  cases Pool.step_moves hstep with
  | start | create | unlock => cases st <;> first | rfl | cases ha
  | destroy | leave | sleep | wake | relock => cases st <;> first | rfl | cases ha
  | finish | enter | find | miss | remove | exit => exact hfits
  | notify =>
    change st.fits p.notify.owner = true
    rcases Pool.owner_notify p with ho | ⟨-, ho, ho'⟩
    · rw [ho]
      exact hfits
    · rw [ho] at hfits
      rw [ho']
      cases st <;> first | rfl | cases hfits
  | yank | kill | release | interrupt | caught => cases st <;> cases ha

/-- What the scheduler and the workers do to the scheduler. -/
theorem crew_step {c : Crew (Fin n) Job Tidings} {a : CrewAct (Fin n) Job Tidings}
    (ha : s.allows a = true) (hstep : s.crew.step a = some c) :
    c.dowork = s.crew.dowork ∧ c.halting = s.crew.halting ∧
      (s.sigcb ≠ .aside → c.phase = s.crew.phase) ∧
      (c.phase = .handling → s.crew.dowork = false → s.crew.phase = .handling) := by
  have haside (hs : s.stage.polls && s.sigcb = .aside) : s.sigcb = .aside := by simp_all
  cases a with
  | report events =>
    have hs := haside ha
    simp only [Crew.step] at hstep
    split at hstep
    · next hd => cases hstep; exact ⟨rfl, rfl, fun hne ↦ absurd hs hne, fun _ hd' ↦ by simp_all⟩
    · cases hstep
  | check =>
    have hs := haside ha
    simp only [Crew.step] at hstep
    split at hstep
    · cases hstep
      split
      · next hd => exact ⟨rfl, rfl, fun hne ↦ absurd hs hne, fun _ hd' ↦ by simp_all⟩
      · exact ⟨rfl, rfl, fun hne ↦ absurd hs hne, fun hp ↦ by cases hp⟩
    · cases hstep
  | next | leave =>
    have hs := haside ha
    simp only [Crew.step] at hstep
    split at hstep
    · cases hstep; exact ⟨rfl, rfl, fun hne ↦ absurd hs hne, fun hp ↦ by cases hp⟩
    · cases hstep
  | handle job =>
    have hs : s.sigcb = .aside := by simp_all [allows]
    simp only [Crew.step] at hstep
    split at hstep
    · cases hstep
      cases job <;> exact ⟨rfl, rfl, fun hne ↦ absurd hs hne, fun hp ↦ by cases hp⟩
    · cases hstep
  | halt | pill => cases ha
  | take t | putBack t | execute t =>
    simp only [Crew.step] at hstep
    split at hstep
    · cases hstep
      exact ⟨rfl, rfl, fun _ ↦ rfl, fun hp _ ↦ hp⟩
    · cases hstep

/-- Registering handlers changes nothing else, if the process goes on. -/
theorem pushSighandler_eq (s : Serving n Job) (sig : Int) (x : Handler) :
    ∃ handlers stage, s.pushSighandler sig x = { s with handlers, stage } := by
  unfold pushSighandler
  split
  · exact ⟨_, s.stage, rfl⟩
  · exact ⟨s.handlers, _, rfl⟩

theorem foldl_pushSighandler (sigs : List Int) (s : Serving n Job) :
    ∃ handlers stage, sigs.foldl (fun s sig ↦ s.pushSighandler sig .halt) s =
      { s with handlers, stage } := by
  induction sigs generalizing s with
  | nil => exact ⟨s.handlers, s.stage, rfl⟩
  | cons sig sigs ih =>
    obtain ⟨handlers, stage, hs⟩ := pushSighandler_eq s sig .halt
    obtain ⟨handlers', stage', hs'⟩ := ih { s with handlers, stage }
    exact ⟨handlers', stage', by rw [List.foldl_cons, hs, hs']⟩

private theorem alive_set (s : Serving n Job) (r : Resource) (b : Bool) :
    (s.set r b).alive = Function.update s.alive r b := rfl

/-- The main thread gets to another place. -/
theorem Sound.pass (h : s.Sound) {alive : Resource → Bool} {handlers : Int → Option Handler}
    {st : Station} (halive : alive = st.owns)
    (hfits : st.fits s.pool.owner = true) (haside : st.polls = true ∨ s.sigcb = .aside)
    (hserve : s.doserve = true ∨ st.prepares = false) :
    ({ s with alive, handlers, stage := st } : Serving n Job).Sound where
  alive := halive
  pool := h.pool
  owner := hfits
  sigcb hne := ⟨(h.sigcb hne).1, haside.resolve_right hne⟩
  stopped := h.stopped
  halted hd := ⟨(h.halted hd).1, hserve.resolve_left (by rw [hd]; nofun)⟩

/-- Before and behind the pool nobody is at work. -/
private theorem fits_eq {st st' : Station} (h : st.pooled = false) (h' : st'.pooled = false)
    (o : Owner n) :
    st'.fits o = st.fits o := by
  have htest {st : Station} (h : st.pooled = false) : st.fits o = Station.test.fits o := by
    cases st <;> cases o <;> first | rfl | cases h
  rw [htest h, htest h']

/-- The main thread goes on. -/
theorem Sound.main (h : s.Sound) (hstep : s.main cfg = some s') : s'.Sound := by
  have halive := h.alive
  have hfits := h.owner
  have haside (hpolls : s.stage.polls = false) : s.sigcb = .aside := by
    by_contra hne
    exact nomatch hpolls.symm.trans (h.sigcb hne).2
  have hserve (hprep : s.stage.prepares = true) : s.doserve = true := by
    by_contra hd
    rw [Bool.not_eq_true] at hd
    exact nomatch hprep.symm.trans (h.halted hd).2
  have hstay {st : Station} (hp : s.stage.pooled = false) (hp' : st.pooled = false) :
      st.fits s.pool.owner = true := (fits_eq hp hp' _).trans hfits
  cases hs : s.stage with
  | test =>
    rw [hs] at halive haside hstay
    simp only [Serving.main, hs] at hstep
    cases hstep
    split
    · next hd => exact h.pass (halive.trans rfl) (hstay rfl rfl) (.inr (haside rfl)) (.inl hd)
    · exact h.pass (halive.trans rfl) (hstay rfl rfl) (.inr (haside rfl)) (.inr rfl)
  | newQueue =>
    rw [hs] at halive haside hstay hserve
    simp only [Serving.main, hs] at hstep
    cases hstep
    refine ⟨?_, h.pool, hstay rfl rfl, fun hne ↦ absurd (haside rfl) hne, nofun, fun hd ↦ ?_⟩
    · change (s.set .jobq true).alive = _
      rw [alive_set, halive]
      funext r
      cases r <;> rfl
    · exact nomatch (hserve rfl).symm.trans hd
  | newFindwork =>
    rw [hs] at halive haside hstay hserve
    simp only [Serving.main, hs] at hstep
    cases hstep
    refine h.pass ?_ (hstay rfl rfl) (.inr (haside rfl)) (.inl (hserve rfl))
    rw [alive_set, halive]
    funext r
    cases r <;> rfl
  | newScheduler =>
    rw [hs] at halive haside hstay hserve
    simp only [Serving.main, hs] at hstep
    cases hstep
    refine ⟨?_, h.pool, hstay rfl rfl, fun hne ↦ absurd rfl hne, fun hd ↦ ?_, fun hd ↦ ?_⟩
    · change (s.set .sch true).alive = _
      rw [alive_set, halive]
      funext r
      cases r <;> rfl
    · exact ⟨(h.stopped hd).1, nofun⟩
    · exact nomatch (hserve rfl).symm.trans hd
  | startup =>
    rw [hs] at halive haside hstay hserve
    simp only [Serving.main, hs] at hstep
    cases hstep
    have hall {st : Station} (hst : st = .handlers ∨ st = .exited) :
        Function.update s.alive .cache true = st.owns := by
      rw [halive]
      funext r
      rcases hst with rfl | rfl <;> cases r <;> rfl
    unfold pushSighandler
    split
    · exact h.pass (hall (.inl rfl)) (hstay rfl rfl) (.inr (haside rfl)) (.inl (hserve rfl))
    · exact h.pass (hall (.inr rfl)) (hstay rfl rfl) (.inr (haside rfl)) (.inl (hserve rfl))
  | handlers =>
    rw [hs] at halive haside hserve
    simp only [Serving.main, hs] at hstep
    cases hstep
    obtain ⟨handlers, stage, heq⟩ := foldl_pushSighandler cfg.haltsigs s
    rw [heq]
    exact ⟨halive.trans (by funext r; cases r <;> rfl), Pool.sound_new n, rfl,
      fun hne ↦ absurd (haside rfl) hne, h.stopped, fun hd ↦ nomatch (hserve rfl).symm.trans hd⟩
  | startSched =>
    rw [hs] at halive hfits
    simp only [Serving.main, hs] at hstep
    cases hstep
    refine h.pass (halive.trans (by funext r; cases r <;> rfl)) ?_ (.inl rfl) (.inr rfl)
    cases ho : s.pool.owner <;> rw [ho] at hfits <;> first | rfl | cases hfits
  | startPool =>
    rw [hs] at halive
    simp only [Serving.main, hs] at hstep
    split at hstep
    · next ho =>
      cases hstep
      refine h.pass (halive.trans (by funext r; cases r <;> rfl)) ?_ (.inl rfl) (.inr rfl)
      rw [ho]
      rfl
    · cases hstep
  | endPool =>
    rw [hs] at halive
    simp only [Serving.main, hs] at hstep
    split at hstep
    · next ho =>
      cases hstep
      refine h.pass (halive.trans (by funext r; cases r <;> rfl)) ?_ (.inl rfl) (.inr rfl)
      rw [ho]
      rfl
    · cases hstep
  | join =>
    rw [hs] at halive hstay
    simp only [Serving.main, hs] at hstep
    split at hstep
    · next hp =>
      cases hstep
      refine h.pass (halive.trans (by funext r; cases r <;> rfl)) (hstay rfl rfl) (.inr ?_)
        (.inr rfl)
      by_contra hne
      cases hp.symm.trans (h.sigcb hne).1
    · cases hstep
  | delFindwork | delScheduler | delQueue | shutdown =>
    rw [hs] at halive haside hstay
    simp only [Serving.main, hs] at hstep
    cases hstep
    refine h.pass ?_ (hstay rfl rfl) (.inr (haside rfl)) (.inr rfl)
    rw [alive_set, halive]
    funext r
    cases r <;> rfl
  | returned | exited =>
    simp only [Serving.main, hs] at hstep
    cases hstep

/-- Whatever is done, all of this stays true. -/
theorem Sound.step {a : ServeAct n Job} (h : s.Sound) (hstep : s.step cfg a = some s') :
    s'.Sound := by
  cases step_moves hstep with
  | main hmain => exact h.main hmain
  | pool ha _ hp =>
    exact ⟨h.alive, h.pool.step hp, fits_step ha h.owner hp, h.sigcb, h.stopped, h.halted⟩
  | crew ha hc =>
    obtain ⟨hdowork, -, hphase, hhandling⟩ := crew_step ha hc
    refine ⟨h.alive, h.pool, h.owner, fun hs ↦ ?_, fun hd ↦ ?_, fun hd ↦ ?_⟩
    · exact ⟨(hphase hs).trans (h.sigcb hs).1, (h.sigcb hs).2⟩
    · have hd' := hdowork.symm.trans hd
      exact ⟨fun hp ↦ (h.stopped hd').1 (hhandling hp hd'), (h.stopped hd').2⟩
    · exact ⟨hdowork.trans (h.halted hd).1, (h.halted hd).2⟩
  | read hb hphase hpolls haside =>
    refine ⟨h.alive, h.pool, h.owner, fun _ ↦ ⟨rfl, hpolls⟩, fun hd ↦ ?_, h.halted⟩
    exact absurd hphase (h.stopped hd).1
  | halt hs | flush hs =>
    have hin := h.sigcb (by rw [hs]; nofun)
    refine ⟨h.alive, h.pool, h.owner, fun _ ↦ hin, fun _ ↦ ⟨?_, nofun⟩, fun _ ↦ ⟨rfl, ?_⟩⟩
    · exact fun hp ↦ nomatch hin.1.symm.trans hp
    · change s.stage.prepares = false
      have hpolls := hin.2
      cases hst : s.stage <;> first | rfl | (rw [hst] at hpolls; cases hpolls)
  | @ignore sig rest hs =>
    have hin := h.sigcb (by rw [hs]; nofun)
    refine ⟨h.alive, h.pool, h.owner, fun _ ↦ hin, fun hd ↦ ?_, h.halted⟩
    exact absurd hs ((h.stopped hd).2 _)
  | @pill rest hs =>
    refine ⟨h.alive, h.pool, h.owner, fun hne ↦ absurd rfl hne, fun hd ↦ ?_, h.halted⟩
    exact ⟨(h.stopped hd).1, nofun⟩
  | back hs =>
    refine ⟨h.alive, h.pool, h.owner, fun hne ↦ absurd rfl hne, fun hd ↦ ?_, h.halted⟩
    exact ⟨(h.stopped hd).1, nofun⟩

/-! ### What is used is there -/

private theorem owns_of_polls {st : Station} (h : st.polls = true) (r : Resource) :
    st.owns r = true := by
  cases st <;> first | rfl | cases h

private theorem Sound.uses_alive {a : ServeAct n Job} (h : s.Sound) (hstep : s.step cfg a = some s')
    {r : Resource} (hr : r ∈ a.uses s) : s.alive r = true := by
  rw [h.alive]
  have hsigcb (hne : s.sigcb ≠ .aside) : s.stage.owns r = true :=
    owns_of_polls (h.sigcb hne).2 r
  cases step_moves hstep with
  | main hmain =>
    cases hs : s.stage <;> simp only [ServeAct.uses, hs, List.mem_cons, List.not_mem_nil,
      or_false] at hr
    case newScheduler => rcases hr with rfl | rfl <;> rfl
    all_goals
      subst hr
      rfl
  | pool => simp [ServeAct.uses] at hr
  | @crew a crew ha hc =>
    cases a with
    | take t | putBack t | execute t =>
      simp only [Serving.allows, decide_eq_true_eq] at ha
      rcases h.stage_of_busy ha with hs | hs <;> exact owns_of_polls (by rw [hs]; rfl) r
    | halt | pill => cases ha
    | handle job =>
      simp only [Serving.allows, Bool.and_eq_true] at ha
      exact owns_of_polls ha.1.1 r
    | report events | check | next | leave =>
      simp only [Serving.allows, Bool.and_eq_true] at ha
      exact owns_of_polls ha.1 r
  | read hb hphase hpolls => exact owns_of_polls hpolls r
  | halt hs | flush hs | ignore hs | pill hs | back hs => exact hsigcb (by rw [hs]; nofun)

private theorem Sound.builds_dead {a : ServeAct n Job} (h : s.Sound) {r : Resource}
    (hr : a.builds s = some r) : s.alive r = false := by
  rw [h.alive]
  cases a with
  | main =>
    cases hs : s.stage <;> simp only [ServeAct.builds, hs, Option.some.injEq, reduceCtorEq] at hr
    all_goals
      subst hr
      rfl
  | _ => cases hr

/-- Whatever is used has been built and not been deleted, nothing is built twice, and nothing is
left at the end. -/
structure Managed (cfg : ServeConfig) (s : Serving n Job) : Prop where
  used : ∀ a s', s.step cfg a = some s' → ∀ r ∈ a.uses s, s.alive r = true
  built : ∀ (a : ServeAct n Job) r, a.builds s = some r → s.alive r = false
  left : s.stage = .returned → ∀ r, s.alive r = false

/-! ### What has been heard -/

/-- A signal that is to end the server has done so, or it is still to be handled. -/
def Heeded (s : Serving n Job) : Prop :=
  s.due = true → s.doserve = false ∨ ∃ rest, s.sigcb = .loop rest ∧ s.ends rest = true

/-- What is still to be handled has been read. -/
def Read (s : Serving n Job) : Prop :=
  ∀ rest, s.sigcb = .loop rest → s.ends rest = true → s.due = true

end Serving

/-- No signal that is to end the server is behind one that flushes the cache. -/
def ServeAct.Heeds {n : Nat} {Job : Type} (s : Serving n Job) : ServeAct n Job → Prop
  | .signal =>
    match s.sigcb with
    | .loop (sig :: rest) => s.handlers sig = some .flush → s.ends rest = false
    | _ => True
  | _ => True

namespace Serving

variable {n : Nat} {Job : Type} {cfg : ServeConfig} {s s' : Serving n Job}

/-- The main thread does not meddle with the signals of a scheduler that is at work. -/
theorem Sound.main_frame (hsound : s.Sound) (h : s.main cfg = some s') :
    s'.due = s.due ∧ s'.doserve = s.doserve ∧
      (s.sigcb = .aside ∧ s'.sigcb = .aside ∨ s'.sigcb = s.sigcb ∧ s'.handlers = s.handlers) := by
  have haside (hpolls : s.stage.polls = false) : s.sigcb = .aside := by
    by_contra hne
    exact nomatch hpolls.symm.trans (hsound.sigcb hne).2
  cases hs : s.stage with
  | startup =>
    rw [hs] at haside
    simp only [Serving.main, hs] at h
    cases h
    obtain ⟨handlers, stage, heq⟩ := pushSighandler_eq
      ({ s.set .cache true with stage := .handlers } : Serving n Job) cfg.sigflush .flush
    rw [heq]
    exact ⟨rfl, rfl, .inl ⟨haside rfl, haside rfl⟩⟩
  | handlers =>
    rw [hs] at haside
    simp only [Serving.main, hs] at h
    cases h
    obtain ⟨handlers, stage, heq⟩ := foldl_pushSighandler cfg.haltsigs s
    rw [heq]
    exact ⟨rfl, rfl, .inl ⟨haside rfl, haside rfl⟩⟩
  | startPool | endPool | join =>
    simp only [Serving.main, hs] at h
    split at h
    · cases h
      exact ⟨rfl, rfl, .inr ⟨rfl, rfl⟩⟩
    · cases h
  | returned | exited =>
    simp only [Serving.main, hs] at h
    cases h
  | newScheduler =>
    rw [hs] at haside
    simp only [Serving.main, hs] at h
    cases h
    exact ⟨rfl, rfl, .inl ⟨haside rfl, rfl⟩⟩
  | _ =>
    simp only [Serving.main, hs] at h
    cases h
    exact ⟨rfl, rfl, .inr ⟨rfl, rfl⟩⟩

/-- The signals that wait, with one less that does not end the server. -/
theorem ends_cons {sig : Int} {rest : List Int} (h : s.handlers sig ≠ some .halt) :
    s.ends (sig :: rest) = s.ends rest := by
  simp [ends, h]

theorem Sound.doserve_of_loop (h : s.Sound) {rest : List Int} (hs : s.sigcb = .loop rest) :
    s.crew.dowork = true ∧ s.doserve = true := by
  have hdowork : s.crew.dowork = true := by
    by_contra hd
    rw [Bool.not_eq_true] at hd
    exact (h.stopped hd).2 rest hs
  refine ⟨hdowork, ?_⟩
  by_contra hd
  rw [Bool.not_eq_true] at hd
  exact nomatch hdowork.symm.trans (h.halted hd).1

/-- What is to be handled stays to be handled, or has been read anew. -/
theorem Read.step {a : ServeAct n Job} (h : s.Sound) (hread : s.Read)
    (hstep : s.step cfg a = some s') : s'.Read := by
  cases step_moves hstep with
  | main hmain =>
    obtain ⟨hdue, -, ⟨-, haside⟩ | ⟨hsigcb, hhandlers⟩⟩ := h.main_frame hmain
    · exact fun rest hs' ↦ nomatch haside.symm.trans hs'
    · intro rest hs' hends
      rw [hdue]
      refine hread rest (hsigcb.symm.trans hs') ?_
      rw [← hends, ends, ends, hhandlers]
  | pool | crew => exact hread
  | @read l batch hb =>
    intro rest hs hends
    cases hs
    change (s.due || s.ends l) = true
    rw [show s.ends l = true from hends, Bool.or_true]
  | halt hs | flush hs => nofun
  | @ignore sig rest hs hsig =>
    obtain ⟨hdowork, -⟩ := h.doserve_of_loop hs
    intro rest' hs' hends
    rw [hdowork] at hs'
    cases hs'
    exact hread _ hs ((ends_cons (by rw [hsig]; nofun)).trans hends)
  | pill | back => nofun

/-- A step leaves a signal unheard if and only if it flushes the cache before it. -/
private theorem heeded_step {a : ServeAct n Job} (h : s.Sound) (hread : s.Read) (hheeded : s.Heeded)
    (hstep : s.step cfg a = some s') : s'.Heeded ↔ a.Heeds s := by
  have hsame (hdue : s'.due = s.due) (hserve : s'.doserve = s.doserve)
      (hold : ∀ rest, s.sigcb = .loop rest → s.ends rest = true →
        ∃ rest', s'.sigcb = .loop rest' ∧ s'.ends rest' = true) : s'.Heeded := by
    intro hd
    rcases hheeded (hdue ▸ hd) with hhalt | ⟨rest, hs, hends⟩
    · exact .inl (hserve.trans hhalt)
    · exact .inr (hold rest hs hends)
  cases step_moves hstep with
  | main hmain =>
    obtain ⟨hdue, hserve, hkeep⟩ := h.main_frame hmain
    refine iff_of_true (hsame hdue hserve fun rest hs hends ↦ ?_) trivial
    rcases hkeep with ⟨haside, -⟩ | ⟨hsigcb, hhandlers⟩
    · cases haside.symm.trans hs
    · refine ⟨rest, hsigcb.trans hs, ?_⟩
      rw [← hends, ends, ends, hhandlers]
  | pool | crew => exact iff_of_true hheeded trivial
  | @read l batch hb hphase hpolls haside =>
    refine iff_of_true (fun hd ↦ ?_) trivial
    rcases Bool.or_eq_true_iff.mp hd with hdue | hends
    · rcases hheeded hdue with hhalt | ⟨rest, hs, -⟩
      · exact .inl hhalt
      · cases haside.symm.trans hs
    · exact .inr ⟨l, rfl, hends⟩
  | @halt sig rest hs hsig =>
    refine iff_of_true (fun _ ↦ .inl rfl) ?_
    simp only [ServeAct.Heeds, hs, hsig]
    nofun
  | @flush sig rest hs hsig =>
    obtain ⟨-, hserve⟩ := h.doserve_of_loop hs
    have hcons : s.ends (sig :: rest) = s.ends rest := ends_cons (by rw [hsig]; nofun)
    simp only [ServeAct.Heeds, hs, hsig, forall_const]
    constructor
    · intro hheeded'
      rw [Bool.eq_false_iff]
      intro hends
      rcases hheeded' (hread _ hs (hcons.trans hends)) with hhalt | ⟨rest', hs', -⟩
      · exact nomatch hserve.symm.trans hhalt
      · cases hs'
    · intro hends hd
      rcases hheeded hd with hhalt | ⟨rest', hs', hends'⟩
      · exact nomatch hserve.symm.trans hhalt
      · cases hs.symm.trans hs'
        exact nomatch hends.symm.trans (hcons.symm.trans hends')
  | @ignore sig rest hs hsig =>
    obtain ⟨hdowork, -⟩ := h.doserve_of_loop hs
    have hcons : s.ends (sig :: rest) = s.ends rest := ends_cons (by rw [hsig]; nofun)
    refine iff_of_true (hsame rfl rfl fun rest' hs' hends ↦ ?_) ?_
    · cases hs.symm.trans hs'
      exact ⟨rest, by rw [hdowork]; rfl, hcons.symm.trans hends⟩
    · simp only [ServeAct.Heeds, hs, hsig]
      nofun
  | @pill rest hs =>
    refine iff_of_true (hsame rfl rfl fun rest' hs' _ ↦ ?_) trivial
    cases hs.symm.trans hs'
  | back hs =>
    refine iff_of_true (hsame rfl rfl fun rest' hs' hends ↦ ?_) trivial
    cases hs.symm.trans hs'
    cases hends

/-- At the start there is nothing. -/
theorem sound_new (n : Nat) (Job : Type) : (new n Job).Sound where
  alive := by
    funext r
    cases r <;> rfl
  pool := Pool.sound_new n
  owner := rfl
  sigcb hne := absurd rfl hne
  stopped := nofun
  halted := nofun

end Serving

section Runs

variable {cfg : ServeConfig} {n : Nat} {Job : Type} {s : Serving n Job}

theorem Serving.sound_of_reachable (h : (serving cfg n Job).Reachable s) : s.Sound :=
  Machine.invariant _ (Serving.sound_new n Job) (fun _ _ _ hs hstep ↦ hs.step hstep) h

/-- For any number of workers and through all rounds: the main thread, the scheduler and the workers
use only what is there, and serve leaves nothing behind. -/
theorem managed_of_reachable (h : (serving cfg n Job).Reachable s) : s.Managed cfg := by
  have hs := Serving.sound_of_reachable h
  refine ⟨fun a s' hstep r hr ↦ hs.uses_alive hstep hr, fun a r hr ↦ hs.builds_dead hr,
    fun hst r ↦ ?_⟩
  rw [hs.alive, hst]
  rfl

/-- A server that SIGINT and SIGTERM end and SIGCONT flushes. -/
def usual : ServeConfig where
  haltsigs := [2, 15]
  sigflush := 18
  valid := by decide

/-- One connection becomes readable, and SIGINT comes at the same time. -/
def oneRound : List (ServeAct 1 Unit) :=
  [.main, .main, .main, .main, .main, .main, .main, .pool .start, .pool .create, .pool .unlock,
    .main, .crew (.report [.conn, .signals [2]]), .crew (.handle (some ())), .crew .check, .read,
    .signal, .pill, .crew .check, .crew (.take 0), .crew (.execute 0), .crew (.take 0),
    .crew (.putBack 0), .pool (.finish 0), .pool .destroy, .pool .test, .pool (.enter 0),
    .pool (.scan 0), .pool (.remove 0), .pool (.notify 0), .pool (.exit 0), .pool .relock,
    .pool .test, .main, .crew .leave, .main]

/-- And the main thread returns from serve. -/
theorem managed_of_reachable_oneRound : ∃ s, (serving usual 1 Unit).run (.new 1 Unit)
    (oneRound ++ [.main, .main, .main, .main, .main]) = some s ∧ s.stage = .returned ∧
      s.Managed usual := by
  obtain ⟨s, hs, hst⟩ : ∃ s, (serving usual 1 Unit).run (.new 1 Unit)
      (oneRound ++ [.main, .main, .main, .main, .main]) = some s ∧ s.stage = .returned :=
    ⟨_, rfl, rfl⟩
  exact ⟨s, hs, hst, managed_of_reachable (n := 1) ⟨_, hs⟩⟩

/-- For any number of workers and any run: every signal that is to end the server and has been read
has done so, or is still to be handled, in all states of the run, if and only if in no step of the
run the cache is flushed while such a signal has been read and waits. -/
theorem heeded_iff_heeds (cfg : ServeConfig) (n : Nat) (Job : Type)
    (acts : List (ServeAct n Job)) :
    (serving cfg n Job).AllStates Serving.Heeded (serving cfg n Job).init acts ↔
      (serving cfg n Job).AllSteps (fun s a ↦ a.Heeds s) (serving cfg n Job).init acts := by
  apply Machine.allStates_iff_allSteps (J := fun s ↦ s.Sound ∧ s.Read)
  · rintro s a s' hheeded ⟨hs, hread⟩ hstep
    exact Serving.heeded_step hs hread hheeded hstep
  · rintro s a s' - ⟨hs, hread⟩ - hstep
    exact ⟨hs.step hstep, hread.step hs hstep⟩
  · nofun
  · exact ⟨Serving.sound_new n Job, nofun⟩

end Runs

end Filth.Sched
