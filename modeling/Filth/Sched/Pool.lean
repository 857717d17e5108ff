import Mathlib
import Filth.Base.Census
import Filth.Base.Progress

/-!
# The pool of threads

`ThreadPool`, `src/ThreadPool.hpp:14–150`, with the threads of `src/Thread.hpp`. A thread of the
pool ends with a call of the pool's `operator()`, which deletes its `Thread` and takes it off the
list; the destructor waits until the list is empty. `UNSAFE_emerg_yank` sends all threads on the
list a signal whose handler makes that call at once, wherever the thread is. A step is one operation
on the mutex or on the list, one turn of a loop, or the arrival of a signal. The last two fields of
a pool are for the proofs alone.
-/

namespace Filth.Sched

open Base

/-- Where a thread of the pool is; `src/Thread.hpp:166–203` and `src/ThreadPool.hpp:97–117`. -/
inductive Life where
  /-- before `pthread_create` -/
  | unborn
  /-- in what the thread is to do -/
  | busy
  /-- in `operator()`, at `m.lock()` -/
  | leaving
  /-- at the loop that looks for the thread in the list and deletes its `Thread` -/
  | scanning
  /-- at `threads.erase` -/
  | found
  /-- at the test whether the list is empty -/
  | removed
  /-- at `m.unlock()` -/
  | erased
  /-- past `operator()` -/
  | gone
  /-- in `operator()` of the handler, at `m.lock()`, while it has locked the mutex itself -/
  | caught
  deriving DecidableEq, Repr

/-- Where the owner of the pool is, `src/ThreadPool.hpp:119–136`: before `start`, in its loop,
behind it, in the destructor's test of the list, in `done.wait()`, at the mutex after that, or past
the destructor. -/
inductive Owner (n : Nat) where
  | ready
  | starting (rest : List (Fin n))
  | started
  | testing
  | asleep
  | woken
  | out
  deriving DecidableEq, Repr

/-- Who has locked the mutex, `src/ThreadPool.hpp:138–150`. `UNSAFE_emerg_yank` has the rest of the
list before it. -/
inductive Holder (n : Nat) where
  | owner
  | thread (t : Fin n)
  | yank (rest : List (Fin n))
  deriving DecidableEq, Repr

/-- A pool of `n` threads; the members of `src/ThreadPool.hpp:42–51`. -/
structure Pool (n : Nat) where
  threads : List (Fin n)
  m : Option (Holder n)
  owner : Owner n
  life : Fin n → Life
  /-- A signal has been sent to the thread. -/
  pending : Fin n → Bool
  /-- The thread is in the handler, which blocks all signals and does not return. -/
  handling : Fin n → Bool
  /-- The `Thread` objects that have been deleted. -/
  deleted : List (Fin n)
  /-- Signals that have been sent to a thread before `pthread_create` had given it a name. -/
  wild : Nat

/-- What the owner, the threads, the thread that calls `UNSAFE_emerg_yank` and the kernel do.
`wake` is a return from `done.wait()` that no signal has asked for. -/
inductive PoolAct (n : Nat) where
  | start
  | create
  | unlock
  | destroy
  | test
  | wake
  | relock
  | finish (t : Fin n)
  | enter (t : Fin n)
  | scan (t : Fin n)
  | remove (t : Fin n)
  | notify (t : Fin n)
  | exit (t : Fin n)
  | yank
  | kill
  | release
  | interrupt (t : Fin n)
  deriving DecidableEq, Repr

variable {n : Nat}

/-- The thread has the mutex. -/
def Life.inside : Life → Bool
  | scanning | found | removed | erased | caught => true
  | _ => false

/-- The threads that the owner has not created yet. -/
def Owner.unborn : Owner n → List (Fin n)
  | ready => List.finRange n
  | starting rest => rest
  | _ => []

/-- The owner has the mutex. -/
def Owner.inside : Owner n → Bool
  | starting _ | testing => true
  | _ => false

namespace Pool

/-- The constructor, `src/ThreadPool.hpp:56–95`. -/
def new (n : Nat) : Pool n :=
  { threads := List.finRange n, m := none, owner := .ready, life := fun _ ↦ .unborn
    pending := fun _ ↦ false, handling := fun _ ↦ false, deleted := [], wild := 0 }

/-- A thread goes on. -/
def goto (p : Pool n) (t : Fin n) (l : Life) : Pool n :=
  { p with life := Function.update p.life t l }

/-- The loop of `operator()`, `src/ThreadPool.hpp:102–107`: the thread deletes its `Thread` where it
finds it in the list. A thread that is not on the list only leaves a line in the log. -/
def scan (p : Pool n) (t : Fin n) : Pool n :=
  if t ∈ p.threads then { p with deleted := p.deleted ++ [t] }.goto t .found
  else p.goto t .erased

/-- `threads.erase`, `src/ThreadPool.hpp:108–109`. -/
def erase (p : Pool n) (t : Fin n) : Pool n := { p with threads := p.threads.erase t }

/-- `done.signal()`, if the list is empty; `src/ThreadPool.hpp:110–111`. -/
def notify (p : Pool n) : Pool n :=
  if p.threads = [] ∧ p.owner = .asleep then { p with owner := .woken } else p

/-- `pthread_kill`, `src/ThreadPool.hpp:145`. -/
def send (p : Pool n) (t : Fin n) : Pool n :=
  if p.life t = .unborn then { p with wild := p.wild + 1 }
  else { p with pending := Function.update p.pending t true }

/-- The handler begins; `src/ThreadPool.hpp:50`. -/
def handle (p : Pool n) (t : Fin n) : Pool n :=
  { p with
    pending := Function.update p.pending t false
    handling := Function.update p.handling t true }

/-- One step, `src/ThreadPool.hpp:97–150`. -/
def step (p : Pool n) : PoolAct n → Option (Pool n)
  | .start =>
    if p.owner = .ready ∧ p.m = none then
      some { p with owner := .starting p.threads, m := some .owner }
    else none
  | .create =>
    match p.owner with
    | .starting (t :: rest) => some ({ p with owner := .starting rest }.goto t .busy)
    | _ => none
  | .unlock => if p.owner = .starting [] then some { p with owner := .started, m := none } else none
  | .destroy =>
    if p.owner = .started ∧ p.m = none then some { p with owner := .testing, m := some .owner }
    else none
  | .test =>
    if p.owner = .testing then
      some { p with owner := if p.threads = [] then .out else .asleep, m := none }
    else none
  | .wake => if p.owner = .asleep then some { p with owner := .woken } else none
  | .relock =>
    if p.owner = .woken ∧ p.m = none then some { p with owner := .testing, m := some .owner }
    else none
  | .finish t => if p.life t = .busy then some (p.goto t .leaving) else none
  | .enter t =>
    if p.life t = .leaving ∧ p.m = none then
      some ({ p with m := some (.thread t) }.goto t .scanning)
    else none
  | .scan t => if p.life t = .scanning then some (p.scan t) else none
  | .remove t => if p.life t = .found then some ((p.erase t).goto t .removed) else none
  | .notify t => if p.life t = .removed then some (p.notify.goto t .erased) else none
  | .exit t => if p.life t = .erased then some ({ p with m := none }.goto t .gone) else none
  | .yank =>
    if p.owner ≠ .out ∧ p.m = none then some { p with m := some (.yank p.threads) } else none
  | .kill =>
    match p.m with
    | some (.yank (t :: rest)) => some ({ p with m := some (.yank rest) }.send t)
    | _ => none
  | .release => if p.m = some (.yank []) then some { p with m := none } else none
  | .interrupt t =>
    if p.pending t = true ∧ p.handling t = false then
      match p.life t with
      | .unborn | .caught => none
      | .scanning | .found | .removed | .erased => some ((p.handle t).goto t .caught)
      | .busy | .leaving | .gone => some ((p.handle t).goto t .leaving)
    else none

/-- What a step can be. -/
inductive Moves (p : Pool n) : PoolAct n → Pool n → Prop where
  | start (ho : p.owner = .ready) (hm : p.m = none) :
      Moves p .start { p with owner := .starting p.threads, m := some .owner }
  | create {t rest} (ho : p.owner = .starting (t :: rest)) :
      Moves p .create ({ p with owner := .starting rest }.goto t .busy)
  | unlock (ho : p.owner = .starting []) : Moves p .unlock { p with owner := .started, m := none }
  | destroy (ho : p.owner = .started) (hm : p.m = none) :
      Moves p .destroy { p with owner := .testing, m := some .owner }
  | leave (ho : p.owner = .testing) (hthreads : p.threads = []) :
      Moves p .test { p with owner := .out, m := none }
  | sleep (ho : p.owner = .testing) (hthreads : p.threads ≠ []) :
      Moves p .test { p with owner := .asleep, m := none }
  | wake (ho : p.owner = .asleep) : Moves p .wake { p with owner := .woken }
  | relock (ho : p.owner = .woken) (hm : p.m = none) :
      Moves p .relock { p with owner := .testing, m := some .owner }
  | finish {t} (hl : p.life t = .busy) : Moves p (.finish t) (p.goto t .leaving)
  | enter {t} (hl : p.life t = .leaving) (hm : p.m = none) :
      Moves p (.enter t) ({ p with m := some (.thread t) }.goto t .scanning)
  | find {t} (hl : p.life t = .scanning) (ht : t ∈ p.threads) :
      Moves p (.scan t) ({ p with deleted := p.deleted ++ [t] }.goto t .found)
  | miss {t} (hl : p.life t = .scanning) (ht : t ∉ p.threads) :
      Moves p (.scan t) (p.goto t .erased)
  | remove {t} (hl : p.life t = .found) : Moves p (.remove t) ((p.erase t).goto t .removed)
  | notify {t} (hl : p.life t = .removed) : Moves p (.notify t) (p.notify.goto t .erased)
  | exit {t} (hl : p.life t = .erased) : Moves p (.exit t) ({ p with m := none }.goto t .gone)
  | yank (ho : p.owner ≠ .out) (hm : p.m = none) :
      Moves p .yank { p with m := some (.yank p.threads) }
  | kill {t rest} (hm : p.m = some (.yank (t :: rest))) :
      Moves p .kill ({ p with m := some (.yank rest) }.send t)
  | release (hm : p.m = some (.yank [])) : Moves p .release { p with m := none }
  | interrupt {t} (hpending : p.pending t = true) (hhandling : p.handling t = false)
      (hl : p.life t = .busy ∨ p.life t = .leaving ∨ p.life t = .gone) :
      Moves p (.interrupt t) ((p.handle t).goto t .leaving)
  | caught {t} (hpending : p.pending t = true) (hhandling : p.handling t = false)
      (hl : p.life t ≠ .caught) (hin : (p.life t).inside = true) :
      Moves p (.interrupt t) ((p.handle t).goto t .caught)

/-- Every step is one of these. -/
theorem step_moves {p q : Pool n} {a : PoolAct n} (h : p.step a = some q) : Moves p a q := by
  cases a with
  | start =>
    simp only [step] at h
    split at h
    · next hs => cases h; exact .start hs.1 hs.2
    · cases h
  | create =>
    simp only [step] at h
    split at h
    · next ho => cases h; exact .create ho
    · cases h
  | unlock =>
    simp only [step] at h
    split at h
    · next ho => cases h; exact .unlock ho
    · cases h
  | destroy =>
    simp only [step] at h
    split at h
    · next hs => cases h; exact .destroy hs.1 hs.2
    · cases h
  | test =>
    simp only [step] at h
    split at h
    · next ho =>
      cases h
      split
      · next hthreads => exact .leave ho hthreads
      · next hthreads => exact .sleep ho hthreads
    · cases h
  | wake =>
    simp only [step] at h
    split at h
    · next ho => cases h; exact .wake ho
    · cases h
  | relock =>
    simp only [step] at h
    split at h
    · next hs => cases h; exact .relock hs.1 hs.2
    · cases h
  | finish t =>
    simp only [step] at h
    split at h
    · next hl => cases h; exact .finish hl
    · cases h
  | enter t =>
    simp only [step] at h
    split at h
    · next hs => cases h; exact .enter hs.1 hs.2
    · cases h
  | scan t =>
    simp only [step] at h
    split at h
    · next hl =>
      cases h
      unfold Pool.scan
      split
      · next ht => exact .find hl ht
      · next ht => exact .miss hl ht
    · cases h
  | remove t =>
    simp only [step] at h
    split at h
    · next hl => cases h; exact .remove hl
    · cases h
  | notify t =>
    simp only [step] at h
    split at h
    · next hl => cases h; exact .notify hl
    · cases h
  | exit t =>
    simp only [step] at h
    split at h
    · next hl => cases h; exact .exit hl
    · cases h
  | yank =>
    simp only [step] at h
    split at h
    · next hs => cases h; exact .yank hs.1 hs.2
    · cases h
  | kill =>
    simp only [step] at h
    split at h
    · next hm => cases h; exact .kill hm
    · cases h
  | release =>
    simp only [step] at h
    split at h
    · next hm => cases h; exact .release hm
    · cases h
  | interrupt t =>
    simp only [step] at h
    split at h
    · next hs =>
      split at h
      case h_1 | h_2 => cases h
      case h_3 hl | h_4 hl | h_5 hl | h_6 hl =>
        cases h
        exact .caught hs.1 hs.2 (by simp [hl]) (by simp [hl, Life.inside])
      case h_7 hl => cases h; exact .interrupt hs.1 hs.2 (.inl hl)
      case h_8 hl => cases h; exact .interrupt hs.1 hs.2 (.inr (.inl hl))
      case h_9 hl => cases h; exact .interrupt hs.1 hs.2 (.inr (.inr hl))
    · cases h

/-! ### Who is on the list, and who has the mutex -/

/-- The list has the threads whose `Thread` has not been deleted, once each, and at most the one
that is about to be taken off it; the mutex is with whoever is in a critical section; the owner
sleeps only while there is somebody to wait for, or to wake it up. -/
structure Sound (p : Pool n) : Prop where
  nodup : p.threads.Nodup
  once : p.deleted.Nodup
  off : ∀ t, t ∉ p.threads → t ∈ p.deleted
  found : ∀ t, p.life t = .found → t ∈ p.threads ∧ t ∈ p.deleted
  middle : ∀ t ∈ p.threads, t ∈ p.deleted → p.life t = .found ∨ p.life t = .caught
  listed : ∀ t, p.life t = .unborn ∨ p.life t = .busy → t ∈ p.threads
  absent : ∀ t, p.life t = .removed ∨ p.life t = .erased ∨ p.life t = .gone → t ∉ p.threads
  unborn : ∀ t, p.life t = .unborn ↔ t ∈ p.owner.unborn
  order : p.owner.unborn.Nodup
  owner : p.m = some .owner ↔ p.owner.inside = true
  thread : ∀ t, p.m = some (.thread t) ↔ (p.life t).inside = true
  asleep : p.owner = .asleep → p.threads = [] → ∃ t, p.life t = .removed ∨ p.life t = .caught
  out : p.owner = .out → p.threads = []

theorem life_goto (p : Pool n) (t u : Fin n) (l : Life) :
    (p.goto t l).life u = if u = t then l else p.life u := Function.update_apply _ _ _ _

variable {p p₁ : Pool n} {t : Fin n} {l : Life}

/-- At the start all threads are on the list, and none has been created. -/
theorem sound_new (n : Nat) : (new n).Sound where
  nodup := List.nodup_finRange n
  once := List.nodup_nil
  off t ht := absurd (List.mem_finRange t) ht
  found t ht := by cases ht
  middle t _ ht := by cases ht
  listed t _ := List.mem_finRange t
  absent t ht := by simp [new] at ht
  unborn t := by simp [new, Owner.unborn]
  order := List.nodup_finRange n
  owner := by simp [new, Owner.inside]
  thread t := by simp [new, Life.inside]
  asleep ho := by cases ho
  out ho := by cases ho

/-- The owner, or somebody outside of the pool, goes on. -/
theorem Sound.frame (h : p.Sound) (hthreads : p₁.threads = p.threads)
    (hdeleted : p₁.deleted = p.deleted) (hlife : p₁.life = p.life)
    (hunborn : ∀ t, t ∈ p₁.owner.unborn ↔ t ∈ p.owner.unborn) (horder : p₁.owner.unborn.Nodup)
    (howner : p₁.m = some .owner ↔ p₁.owner.inside = true)
    (hthread : ∀ t, p₁.m = some (.thread t) ↔ p.m = some (.thread t))
    (hasleep : p₁.owner = .asleep → p.threads = [] →
      ∃ t, p.life t = .removed ∨ p.life t = .caught)
    (hout : p₁.owner = .out → p.threads = []) : p₁.Sound where
  nodup := hthreads ▸ h.nodup
  once := hdeleted ▸ h.once
  off t := by
    rw [hthreads, hdeleted]
    exact h.off t
  found t := by
    rw [hthreads, hdeleted, hlife]
    exact h.found t
  middle t := by
    rw [hthreads, hdeleted, hlife]
    exact h.middle t
  listed t ht := by
    rw [hlife] at ht
    rw [hthreads]
    exact h.listed t ht
  absent t ht := by
    rw [hlife] at ht
    rw [hthreads]
    exact h.absent t ht
  unborn t := by rw [hlife, h.unborn, hunborn]
  order := horder
  owner := howner
  thread t := by rw [hthread, h.thread, hlife]
  asleep ho hnil := by
    rw [hlife]
    exact hasleep ho (hthreads ▸ hnil)
  out ho := hthreads ▸ hout ho

/-- The owner goes on behind its loop. -/
private theorem Sound.owner_goto {o : Owner n} {m : Option (Holder n)} (h : p.Sound)
    (hold : p.owner.unborn = []) (hnew : o.unborn = [])
    (howner : m = some .owner ↔ o.inside = true)
    (hthread : ∀ t, m = some (.thread t) ↔ p.m = some (.thread t))
    (hasleep : o = .asleep → p.threads ≠ []) (hout : o = .out → p.threads = []) :
    ({ p with owner := o, m } : Pool n).Sound := by
  refine h.frame rfl rfl rfl (fun t ↦ ?_) ?_ howner hthread
    (fun ho hnil ↦ absurd hnil (hasleep ho)) hout
  · rw [hold, hnew]
  · rw [hnew]
    exact List.nodup_nil

/-- A thread goes on that has been created, and leaves the list as it is. It is caught, or was not
in the middle of taking itself off the list. -/
theorem Sound.goto (h : p.Sound) (hthreads : p₁.threads = p.threads)
    (hdeleted : p₁.deleted = p.deleted) (howner : p₁.owner = p.owner) (hlife : p₁.life = p.life)
    (hold : p.life t ≠ .unborn) (hnew : l ≠ .unborn ∧ l ≠ .busy ∧ l ≠ .found ∧ l ≠ .removed)
    (habsent : l = .erased ∨ l = .gone → t ∉ p.threads)
    (hfree : l = .caught ∨
      p.life t ≠ .found ∧ p.life t ≠ .removed ∧ p.life t ≠ .caught)
    (hm : p₁.m = some .owner ↔ p.m = some .owner)
    (hthread : ∀ u, p₁.m = some (.thread u) ↔ ((p.goto t l).life u).inside = true) :
    (p₁.goto t l).Sound := by
  have hgoto : (p₁.goto t l).life = (p.goto t l).life := by
    unfold Pool.goto
    rw [hlife]
  have hlist : (p₁.goto t l).threads = p.threads := hthreads
  have hdel : (p₁.goto t l).deleted = p.deleted := hdeleted
  have hown : (p₁.goto t l).owner = p.owner := howner
  refine ⟨hlist ▸ h.nodup, hdel ▸ h.once, fun u ↦ ?_, fun u hu ↦ ?_, fun u hu hud ↦ ?_,
    fun u hu ↦ ?_, fun u hu ↦ ?_, fun u ↦ ?_, hown ▸ h.order, ?_, fun u ↦ ?_, fun ho hnil ↦ ?_,
    fun ho ↦ ?_⟩
  · rw [hlist, hdel]
    exact h.off u
  · rw [hgoto, life_goto] at hu
    rw [hlist, hdel]
    split at hu
    · exact absurd hu hnew.2.2.1
    · exact h.found u hu
  · rw [hlist] at hu
    rw [hdel] at hud
    have hmiddle := h.middle u hu hud
    rw [hgoto, life_goto]
    split
    · next hut =>
      subst hut
      rcases hfree with rfl | ⟨hfound, -, hcaught⟩
      · exact .inr rfl
      · exact absurd hmiddle (not_or.mpr ⟨hfound, hcaught⟩)
    · exact hmiddle
  · rw [hgoto, life_goto] at hu
    rw [hlist]
    split at hu
    · exact absurd hu (not_or.mpr ⟨hnew.1, hnew.2.1⟩)
    · exact h.listed u hu
  · rw [hgoto, life_goto] at hu
    rw [hlist]
    split at hu
    · next hut => exact hut ▸ habsent (hu.resolve_left hnew.2.2.2)
    · exact h.absent u hu
  · rw [hgoto, life_goto, hown, ← h.unborn]
    split
    · next hut => exact iff_of_false hnew.1 (hut ▸ hold)
    · exact Iff.rfl
  · rw [hown]
    exact hm.trans h.owner
  · rw [hgoto]
    exact hthread u
  · obtain ⟨u, hu⟩ := h.asleep (hown ▸ ho) (hlist ▸ hnil)
    refine ⟨u, ?_⟩
    rw [hgoto, life_goto]
    split
    · next hut =>
      subst hut
      rcases hfree with rfl | ⟨-, hremoved, hcaught⟩
      · exact .inr rfl
      · exact absurd hu (not_or.mpr ⟨hremoved, hcaught⟩)
    · exact hu
  · exact hlist ▸ h.out (hown ▸ ho)

/-- A thread goes on and keeps the mutex, or does without it. -/
theorem Sound.proceed (h : p.Sound) (hthreads : p₁.threads = p.threads)
    (hdeleted : p₁.deleted = p.deleted) (howner : p₁.owner = p.owner) (hlife : p₁.life = p.life)
    (hm : p₁.m = p.m) (hold : p.life t ≠ .unborn)
    (hnew : l ≠ .unborn ∧ l ≠ .busy ∧ l ≠ .found ∧ l ≠ .removed)
    (habsent : l = .erased ∨ l = .gone → t ∉ p.threads)
    (hfree : l = .caught ∨
      p.life t ≠ .found ∧ p.life t ≠ .removed ∧ p.life t ≠ .caught)
    (hin : l.inside = (p.life t).inside) : (p₁.goto t l).Sound := by
  refine h.goto hthreads hdeleted howner hlife hold hnew habsent hfree (hm ▸ Iff.rfl) fun u ↦ ?_
  rw [hm, h.thread, life_goto]
  split
  · next hut => rw [hut, hin]
  · exact Iff.rfl

/-- The owner is where it was, or it has been woken up. -/
theorem owner_notify (p : Pool n) : p.notify.owner = p.owner ∨
    (p.threads = [] ∧ p.owner = .asleep ∧ p.notify.owner = .woken) := by
  unfold Pool.notify
  split
  · next hlast => exact .inr ⟨hlast.1, hlast.2, rfl⟩
  · exact .inl rfl

private theorem threads_notify (p : Pool n) : p.notify.threads = p.threads := by
  unfold Pool.notify
  split <;> rfl

private theorem deleted_notify (p : Pool n) : p.notify.deleted = p.deleted := by
  unfold Pool.notify
  split <;> rfl

theorem life_notify (p : Pool n) : p.notify.life = p.life := by
  unfold Pool.notify
  split <;> rfl

theorem m_notify (p : Pool n) : p.notify.m = p.m := by
  unfold Pool.notify
  split <;> rfl

/-- Nothing of this is for a thread that has the mutex to change. -/
theorem Sound.inside_goto (h : p.Sound) (hold : (p.life t).inside = true) (hnew : l.inside = true)
    (u : Fin n) : p.m = some (.thread u) ↔ ((p.goto t l).life u).inside = true := by
  rw [h.thread, life_goto]
  split
  · next hut => rw [hut, hold, hnew]
  · exact Iff.rfl

/-- Nobody is created, or kept from it, by a thread that goes on. -/
theorem Sound.unborn_goto (h : p.Sound) (hold : p.life t ≠ .unborn) (hnew : l ≠ .unborn)
    (u : Fin n) : (p.goto t l).life u = .unborn ↔ u ∈ p.owner.unborn := by
  rw [life_goto, ← h.unborn]
  split
  · next hut => exact iff_of_false hnew (hut ▸ hold)
  · exact Iff.rfl

/-- A thread deletes its `Thread`, which is still on the list. -/
theorem Sound.find (h : p.Sound) (hl : p.life t = .scanning) (ht : t ∈ p.threads) :
    ({ p with deleted := p.deleted ++ [t] }.goto t .found : Pool n).Sound := by
  have hlive : t ∉ p.deleted := by
    intro hdel
    rcases h.middle t ht hdel with hfound | hcaught
    · cases hl.symm.trans hfound
    · cases hl.symm.trans hcaught
  have hlife (u : Fin n) : ({ p with deleted := p.deleted ++ [t] }.goto t .found : Pool n).life u =
      if u = t then .found else p.life u := life_goto _ _ _ _
  refine ⟨h.nodup, ?_, fun u hu ↦ ?_, fun u hu ↦ ?_, fun u hu hud ↦ ?_, fun u hu ↦ ?_,
    fun u hu ↦ ?_, h.unborn_goto (by simp [hl]) nofun, h.order, h.owner,
    h.inside_goto (by simp [hl, Life.inside]) rfl, fun ho hnil ↦ ?_, h.out⟩
  · exact h.once.append (List.nodup_singleton t) (by simpa using hlive)
  · exact List.mem_append_left _ (h.off u hu)
  · rw [hlife] at hu
    split at hu
    · next hut =>
      subst hut
      exact ⟨ht, List.mem_append_right _ (List.mem_singleton_self u)⟩
    · obtain ⟨hlist, hdel⟩ := h.found u hu
      exact ⟨hlist, List.mem_append_left _ hdel⟩
  · rw [hlife]
    split
    · exact .inl rfl
    · next hut =>
      refine h.middle u hu ?_
      have hdel : u ∈ p.deleted ++ [t] := hud
      simpa [hut] using hdel
  · rw [hlife] at hu
    split at hu
    · simp at hu
    · exact h.listed u hu
  · rw [hlife] at hu
    split at hu
    · simp at hu
    · exact h.absent u hu
  · change p.threads = [] at hnil
    rw [hnil] at ht
    cases ht

/-- It takes it off. -/
theorem Sound.erase (h : p.Sound) (hl : p.life t = .found) :
    ((p.erase t).goto t .removed).Sound := by
  have hmem (u : Fin n) : u ∈ p.threads.erase t ↔ u ≠ t ∧ u ∈ p.threads :=
    h.nodup.mem_erase_iff
  have hlife (u : Fin n) : ((p.erase t).goto t .removed).life u =
      if u = t then .removed else p.life u := life_goto _ _ _ _
  refine ⟨h.nodup.erase t, h.once, fun u hu ↦ ?_, fun u hu ↦ ?_, fun u hu hud ↦ ?_, fun u hu ↦ ?_,
    fun u hu ↦ ?_, h.unborn_goto (by simp [hl]) nofun, h.order, h.owner,
    h.inside_goto (by simp [hl, Life.inside]) rfl, fun _ _ ↦ ⟨t, .inl ?_⟩, fun ho ↦ ?_⟩
  · by_cases hut : u = t
    · exact hut ▸ (h.found t hl).2
    · exact h.off u fun hin ↦ hu ((hmem u).mpr ⟨hut, hin⟩)
  · rw [hlife] at hu
    split at hu
    · cases hu
    · next hut => exact ⟨(hmem u).mpr ⟨hut, (h.found u hu).1⟩, (h.found u hu).2⟩
  · obtain ⟨hut, hin⟩ := (hmem u).mp hu
    rw [hlife, if_neg hut]
    exact h.middle u hin hud
  · rw [hlife] at hu
    split at hu
    · simp at hu
    · next hut => exact (hmem u).mpr ⟨hut, h.listed u hu⟩
  · rw [hlife] at hu
    intro hin
    obtain ⟨hut, hin⟩ := (hmem u).mp hin
    rw [if_neg hut] at hu
    exact h.absent u hu hin
  · rw [hlife, if_pos rfl]
  · change p.threads.erase t = []
    rw [h.out ho]
    rfl

/-- It wakes up the owner, if it was the last one. -/
theorem Sound.notify (h : p.Sound) (hl : p.life t = .removed) :
    (p.notify.goto t .erased).Sound := by
  have hlife (u : Fin n) : (p.notify.goto t .erased).life u =
      if u = t then .erased else p.life u := by rw [life_goto, life_notify]
  have hown : p.notify.owner.unborn = p.owner.unborn ∧
      p.notify.owner.inside = p.owner.inside := by
    rcases owner_notify p with ho | ⟨-, ho, ho'⟩
    · rw [ho]
      exact ⟨rfl, rfl⟩
    · rw [ho, ho']
      exact ⟨rfl, rfl⟩
  refine ⟨?_, ?_, fun u ↦ ?_, fun u hu ↦ ?_, fun u hu hud ↦ ?_, fun u hu ↦ ?_, fun u hu ↦ ?_,
    fun u ↦ ?_, ?_, ?_, fun u ↦ ?_, fun ho hnil ↦ ?_, fun ho ↦ ?_⟩
  · change p.notify.threads.Nodup
    rw [threads_notify]
    exact h.nodup
  · change p.notify.deleted.Nodup
    rw [deleted_notify]
    exact h.once
  · change u ∉ p.notify.threads → u ∈ p.notify.deleted
    rw [threads_notify, deleted_notify]
    exact h.off u
  · change u ∈ p.notify.threads ∧ u ∈ p.notify.deleted
    rw [threads_notify, deleted_notify]
    rw [hlife] at hu
    split at hu
    · cases hu
    · exact h.found u hu
  · change u ∈ p.notify.threads at hu
    change u ∈ p.notify.deleted at hud
    rw [threads_notify] at hu
    rw [deleted_notify] at hud
    rw [hlife, if_neg]
    · exact h.middle u hu hud
    · rintro rfl
      exact h.absent u (.inl hl) hu
  · change u ∈ p.notify.threads
    rw [threads_notify]
    rw [hlife] at hu
    split at hu
    · simp at hu
    · exact h.listed u hu
  · change u ∉ p.notify.threads
    rw [threads_notify]
    rw [hlife] at hu
    split at hu
    · next hut => exact hut ▸ h.absent t (.inl hl)
    · exact h.absent u hu
  · change _ ↔ u ∈ p.notify.owner.unborn
    rw [hlife, hown.1, ← h.unborn]
    split
    · next hut => simp [hut, hl]
    · exact Iff.rfl
  · change p.notify.owner.unborn.Nodup
    rw [hown.1]
    exact h.order
  · change p.notify.m = some .owner ↔ p.notify.owner.inside = true
    rw [m_notify, hown.2]
    exact h.owner
  · change p.notify.m = some (.thread u) ↔ _
    rw [m_notify, h.thread, hlife]
    split
    · next hut => simp [hut, hl, Life.inside]
    · exact Iff.rfl
  · change p.notify.owner = .asleep at ho
    change p.notify.threads = [] at hnil
    rw [threads_notify] at hnil
    unfold Pool.notify at ho
    split at ho
    · cases ho
    · next hnot => exact absurd ⟨hnil, ho⟩ hnot
  · change p.notify.threads = []
    rw [threads_notify]
    rcases owner_notify p with hsame | ⟨hnil, -⟩
    · exact h.out (hsame ▸ ho)
    · exact hnil

/-- The owner creates the next thread. -/
theorem Sound.create {rest : List (Fin n)} (h : p.Sound) (ho : p.owner = .starting (t :: rest)) :
    ({ p with owner := .starting rest }.goto t .busy : Pool n).Sound := by
  have hunborn (u : Fin n) : p.life u = .unborn ↔ u = t ∨ u ∈ rest := by
    rw [h.unborn, ho]
    exact List.mem_cons
  have hnodup : t ∉ rest ∧ rest.Nodup := by
    have horder := h.order
    rw [ho] at horder
    exact List.nodup_cons.mp horder
  have ht : p.life t = .unborn := (hunborn t).mpr (.inl rfl)
  refine ⟨h.nodup, h.once, h.off, fun u hu ↦ ?_, fun u hu hud ↦ ?_, fun u hu ↦ ?_, fun u hu ↦ ?_,
    fun u ↦ ?_, hnodup.2, ?_, fun u ↦ ?_, nofun, nofun⟩
  · rw [life_goto] at hu
    split at hu
    · cases hu
    · exact h.found u hu
  · have hmiddle := h.middle u hu hud
    rw [life_goto, if_neg]
    · exact hmiddle
    · rintro rfl
      simp [ht] at hmiddle
  · change u ∈ p.threads
    rw [life_goto] at hu
    split at hu
    · next hut => exact hut ▸ h.listed t (.inl ht)
    · exact h.listed u hu
  · change u ∉ p.threads
    rw [life_goto] at hu
    split at hu
    · simp at hu
    · exact h.absent u hu
  · change _ ↔ u ∈ rest
    rw [life_goto]
    split
    · next hut => simp [hut, hnodup.1]
    · next hut => simp [hunborn, hut]
  · change p.m = some .owner ↔ _
    rw [h.owner, ho]
    rfl
  · change p.m = some (.thread u) ↔ _
    rw [h.thread, life_goto]
    split
    · next hut => simp [hut, ht, Life.inside]
    · exact Iff.rfl

/-- Whatever is done, all of this stays true. -/
theorem Sound.step {q : Pool n} {a : PoolAct n} (h : p.Sound) (hstep : p.step a = some q) :
    q.Sound := by
  have howner : p.m = some .owner ↔ p.owner.inside = true := h.owner
  have hthread := h.thread
  have hinside {u : Fin n} (hu : (p.life u).inside = true) (v : Fin n) :
      (p.life v).inside = true ↔ v = u := by
    have hm := (hthread u).mpr hu
    rw [← hthread v, hm]
    simp [eq_comm]
  cases step_moves hstep with
  | start ho hm =>
    have hall (t : Fin n) : t ∈ p.threads :=
      h.listed t (.inl ((h.unborn t).mpr (by rw [ho]; exact List.mem_finRange t)))
    refine h.frame rfl rfl rfl (fun t ↦ ?_) h.nodup ?_ (fun t ↦ ?_) nofun nofun
    · rw [ho]
      exact iff_of_true (hall t) (List.mem_finRange t)
    · simp [Owner.inside]
    · simp [hm]
  | create ho => exact h.create ho
  | unlock ho =>
    rw [ho] at howner
    have hm := howner.mpr rfl
    exact h.owner_goto (by rw [ho]; rfl) rfl (by simp [Owner.inside]) (by simp [hm]) nofun nofun
  | destroy ho hm =>
    exact h.owner_goto (by rw [ho]; rfl) rfl (by simp [Owner.inside]) (by simp [hm]) nofun nofun
  | leave ho hthreads =>
    rw [ho] at howner
    have hm := howner.mpr rfl
    exact h.owner_goto (by rw [ho]; rfl) rfl (by simp [Owner.inside]) (by simp [hm]) nofun
      fun _ ↦ hthreads
  | sleep ho hthreads =>
    rw [ho] at howner
    have hm := howner.mpr rfl
    exact h.owner_goto (by rw [ho]; rfl) rfl (by simp [Owner.inside]) (by simp [hm])
      (fun _ ↦ hthreads) nofun
  | wake ho =>
    rw [ho] at howner
    exact h.owner_goto (by rw [ho]; rfl) rfl howner (fun t ↦ Iff.rfl) nofun nofun
  | relock ho hm =>
    exact h.owner_goto (by rw [ho]; rfl) rfl (by simp [Owner.inside]) (by simp [hm]) nofun nofun
  | finish hl =>
    exact h.proceed rfl rfl rfl rfl rfl (by simp [hl]) (by simp) (by simp) (by simp [hl])
      (by simp [hl, Life.inside])
  | @enter t hl hm =>
    rw [hm] at howner hthread
    refine h.goto rfl rfl rfl rfl (by simp [hl]) (by simp) (by simp) (by simp [hl]) (by simp [hm])
      fun u ↦ ?_
    rw [life_goto]
    split
    · next hut => simp [hut, Life.inside]
    · next hut =>
      rw [← hthread u]
      simp [Ne.symm hut]
  | find hl ht => exact h.find hl ht
  | miss hl ht =>
    exact h.proceed rfl rfl rfl rfl rfl (by simp [hl]) (by simp) (fun _ ↦ ht) (by simp [hl])
      (by simp [hl, Life.inside])
  | remove hl => exact h.erase hl
  | notify hl => exact h.notify hl
  | @exit t hl =>
    have hin : (p.life t).inside = true := by rw [hl]; rfl
    have hm := (hthread t).mpr hin
    refine h.goto rfl rfl rfl rfl (by simp [hl]) (by simp)
      (fun _ ↦ h.absent t (.inr (.inl hl))) (by simp [hl]) (by simp [hm]) fun u ↦ ?_
    rw [life_goto]
    split
    · simp [Life.inside]
    · next hut => simp [hinside hin, hut]
  | yank ho hm =>
    refine h.frame rfl rfl rfl (fun t ↦ Iff.rfl) h.order ?_ (fun t ↦ ?_) h.asleep h.out
    · rw [← howner, hm]
      simp
    · simp [hm]
  | @kill t rest hm =>
    unfold Pool.send
    split <;>
    · refine h.frame rfl rfl rfl (fun t ↦ Iff.rfl) h.order ?_ (fun t ↦ ?_) h.asleep h.out
      · change some (Holder.yank rest) = some .owner ↔ p.owner.inside = true
        rw [← howner, hm]
        simp
      · simp [hm]
  | release hm =>
    refine h.frame rfl rfl rfl (fun t ↦ Iff.rfl) h.order ?_ (fun t ↦ ?_) h.asleep h.out
    · rw [← howner, hm]
      simp
    · simp [hm]
  | interrupt hpending hhandling hl =>
    rcases hl with hl | hl | hl <;>
      exact h.proceed rfl rfl rfl rfl rfl (by simp [hl]) (by simp) (by simp) (by simp [hl])
        (by simp [hl, Life.inside])
  | caught hpending hhandling hl hin =>
    refine h.proceed rfl rfl rfl rfl rfl ?_ (by simp) (by simp) (.inl rfl) hin.symm
    intro hunborn
    rw [hunborn] at hin
    cases hin

end Pool

/-! ### How much there is left to do -/

/-- Steps of a thread until it is past `operator()`. -/
def Life.rank : Life → Nat
  | unborn => 7
  | busy => 6
  | leaving => 5
  | scanning => 4
  | found => 3
  | removed => 2
  | erased => 1
  | gone | caught => 0

/-- Steps of the owner until it is past the destructor or asleep. -/
def Owner.rank : Owner n → Nat
  | ready => 6
  | starting _ => 5
  | started => 4
  | woken => 3
  | testing => 2
  | asleep => 1
  | out => 0

/-- Steps until `UNSAFE_emerg_yank` has returned. -/
def Holder.rank : Holder n → Nat
  | yank rest => rest.length + 1
  | _ => 0

/-- A step of the owner, of a thread or of `UNSAFE_emerg_yank` once it has been called: no signal
arrives, and the owner is not woken up for nothing. -/
def PoolAct.drains : PoolAct n → Bool
  | wake | yank | interrupt _ => false
  | _ => true

namespace Pool

/-- What is left. A thread on the list may have to wake up the owner, which counts for two. -/
def left (p : Pool n) : Nat :=
  7 * ∑ t, (p.life t).rank + p.owner.rank + (p.m.map Holder.rank).getD 0

/-- Nobody waits for a mutex that it has itself. -/
def Uncaught (p : Pool n) : Prop := ∀ t, p.life t ≠ .caught

variable {p q : Pool n} {t : Fin n} {l : Life} {a : PoolAct n}

private theorem left_goto (p : Pool n) (t : Fin n) (l : Life) :
    (p.goto t l).left + 7 * (p.life t).rank = p.left + 7 * l.rank := by
  have hsum := sum_update Life.rank p.life t l
  unfold left Pool.goto
  dsimp only
  omega

private theorem left_notify (p : Pool n) : p.notify.left ≤ p.left + 2 := by
  unfold left
  rw [life_notify, m_notify]
  rcases owner_notify p with ho | ⟨-, ho, ho'⟩
  · rw [ho]
    omega
  · rw [ho, ho']
    simp only [Owner.rank]
    omega

private theorem left_send (p : Pool n) (t : Fin n) : (p.send t).left = p.left := by
  unfold Pool.send
  split <;> rfl

/-- Every step of this kind gets nearer to the end. -/
theorem left_lt_of_drains (h : p.Sound) (ha : a.drains = true) (hstep : p.step a = some q) :
    q.left < p.left := by
  cases step_moves hstep with
  | start ho hm | destroy ho hm | relock ho hm =>
    simp only [left, ho, hm, Owner.rank, Option.map_some, Option.map_none, Option.getD_some,
      Option.getD_none, Holder.rank]
    omega
  | @create t rest ho =>
    have hl : p.life t = .unborn := by
      rw [h.unborn, ho]
      exact List.mem_cons_self
    have hgoto := left_goto { p with owner := .starting rest } t .busy
    have hsame : ({ p with owner := .starting rest } : Pool n).left = p.left := by
      simp only [left, ho, Owner.rank]
    simp only [hl, Life.rank, hsame] at hgoto
    omega
  | unlock ho | leave ho | sleep ho =>
    simp only [left, ho, Owner.rank, Option.map_none, Option.getD_none]
    omega
  | @finish t hl =>
    have hgoto := left_goto p t .leaving
    simp only [hl, Life.rank] at hgoto
    omega
  | @enter t hl hm =>
    have hgoto := left_goto { p with m := some (.thread t) } t .scanning
    have hsame : ({ p with m := some (.thread t) } : Pool n).left = p.left := by
      simp only [left, hm, Option.map_some, Option.map_none, Option.getD_some, Option.getD_none,
        Holder.rank]
    simp only [hl, Life.rank, hsame] at hgoto
    omega
  | @find t hl ht =>
    have hgoto := left_goto { p with deleted := p.deleted ++ [t] } t .found
    have hsame : ({ p with deleted := p.deleted ++ [t] } : Pool n).left = p.left := rfl
    simp only [hl, Life.rank, hsame] at hgoto
    omega
  | @miss t hl ht =>
    have hgoto := left_goto p t .erased
    simp only [hl, Life.rank] at hgoto
    omega
  | @remove t hl =>
    have hgoto := left_goto (p.erase t) t .removed
    have hlife : (p.erase t).life t = .found := hl
    have hsame : (p.erase t).left = p.left := rfl
    simp only [hlife, Life.rank, hsame] at hgoto
    omega
  | @notify t hl =>
    have hgoto := left_goto p.notify t .erased
    have hnotify := left_notify p
    simp only [life_notify, hl, Life.rank] at hgoto
    omega
  | @exit t hl =>
    have hgoto := left_goto { p with m := none } t .gone
    have hsame : ({ p with m := none } : Pool n).left ≤ p.left := by
      simp only [left, Option.map_none, Option.getD_none]
      omega
    simp only [hl, Life.rank] at hgoto
    omega
  | @kill t rest hm =>
    rw [left_send]
    simp only [left, hm, Option.map_some, Option.getD_some, Holder.rank, List.length_cons]
    omega
  | release hm =>
    simp only [left, hm, Option.map_some, Option.map_none, Option.getD_some, Option.getD_none,
      Holder.rank]
    omega
  | wake | yank | interrupt | caught => cases ha

/-- Only the arrival of a signal can catch a thread. -/
theorem Uncaught.step (hu : p.Uncaught) (ha : a.drains = true) (hstep : p.step a = some q) :
    q.Uncaught := by
  have hgoto {r : Pool n} (hr : r.life = p.life) (t : Fin n) {l : Life} (hl : l ≠ .caught) :
      (r.goto t l).Uncaught := by
    intro u
    rw [life_goto, hr]
    split
    · exact hl
    · exact hu u
  cases step_moves hstep with
  | start | unlock | destroy | leave | sleep | relock | release => exact hu
  | create | finish | enter | find | miss | remove | exit => exact hgoto rfl _ nofun
  | notify => exact hgoto (life_notify _) _ nofun
  | kill =>
    unfold Pool.send
    split <;> exact hu
  | wake | yank | interrupt | caught => cases ha

/-- As long as nobody is caught, somebody can go on until the owner is out. -/
theorem Sound.goesOn (h : p.Sound) (hu : p.Uncaught) (hout : p.owner ≠ .out) :
    ∃ a, a.drains = true ∧ (p.step a).isSome := by
  cases hm : p.m with
  | some holder =>
    cases holder with
    | owner =>
      have hin := h.owner.mp hm
      cases ho : p.owner with
      | starting rest =>
        cases rest with
        | nil => exact ⟨.unlock, rfl, by simp [Pool.step, ho]⟩
        | cons t rest => exact ⟨.create, rfl, by simp [Pool.step, ho]⟩
      | testing => exact ⟨.test, rfl, by simp [Pool.step, ho]⟩
      | _ =>
        rw [ho] at hin
        cases hin
    | thread t =>
      have hin := (h.thread t).mp hm
      cases hl : p.life t with
      | scanning => exact ⟨.scan t, rfl, by simp [Pool.step, hl]⟩
      | found => exact ⟨.remove t, rfl, by simp [Pool.step, hl]⟩
      | removed => exact ⟨.notify t, rfl, by simp [Pool.step, hl]⟩
      | erased => exact ⟨.exit t, rfl, by simp [Pool.step, hl]⟩
      | caught => exact absurd hl (hu t)
      | _ =>
        rw [hl] at hin
        cases hin
    | yank rest =>
      cases rest with
      | nil => exact ⟨.release, rfl, by simp [Pool.step, hm]⟩
      | cons t rest => exact ⟨.kill, rfl, by simp [Pool.step, hm]⟩
  | none =>
    have hin : p.owner.inside = false := by
      have := h.owner
      rw [hm] at this
      simpa using this
    cases ho : p.owner with
    | ready => exact ⟨.start, rfl, by simp [Pool.step, ho, hm]⟩
    | started => exact ⟨.destroy, rfl, by simp [Pool.step, ho, hm]⟩
    | woken => exact ⟨.relock, rfl, by simp [Pool.step, ho, hm]⟩
    | out => exact absurd ho hout
    | starting rest | testing =>
      rw [ho] at hin
      cases hin
    | asleep =>
      have hfree (t : Fin n) : (p.life t).inside = false := by
        have := h.thread t
        rw [hm] at this
        simpa using this
      have hne : p.threads ≠ [] := by
        intro hnil
        obtain ⟨t, hl⟩ := h.asleep ho hnil
        have := hfree t
        rcases hl with hl | hl <;> simp [hl, Life.inside] at this
      -- somebody is still on the list, and has not begun to take himself off it
      obtain ⟨t, ht⟩ := List.exists_mem_of_ne_nil _ hne
      have hfree := hfree t
      cases hl : p.life t with
      | unborn =>
        have hborn := (h.unborn t).mp hl
        rw [ho] at hborn
        cases hborn
      | busy => exact ⟨.finish t, rfl, by simp [Pool.step, hl]⟩
      | leaving => exact ⟨.enter t, rfl, by simp [Pool.step, hl, hm]⟩
      | gone => exact absurd ht (h.absent t (.inr (.inr hl)))
      | scanning | found | removed | erased | caught =>
        rw [hl] at hfree
        cases hfree

/-- A thread that is caught stays so, and the owner stays where it is, or gets to the mutex. -/
theorem Sound.stuck (h : p.Sound) (hl : p.life t = .caught) (hout : p.owner ≠ .out)
    (hstep : p.step a = some q) : q.life t = .caught ∧ q.owner ≠ .out := by
  have hin : (p.life t).inside = true := by rw [hl]; rfl
  have hm := (h.thread t).mpr hin
  have hother {r : Pool n} (hr : r.life = p.life) {u : Fin n} {l : Life} (hu : p.life u ≠ .caught) :
      (r.goto u l).life t = .caught := by
    rw [life_goto, hr, if_neg]
    · exact hl
    · rintro rfl
      exact hu hl
  have howner := h.owner
  rw [hm] at howner
  cases step_moves hstep with
  | start _ hm' | destroy _ hm' | relock _ hm' | yank _ hm' => cases hm.symm.trans hm'
  | unlock ho | leave ho | sleep ho =>
    rw [ho] at howner
    cases howner.mpr rfl
  | create ho =>
    rw [ho] at howner
    cases howner.mpr rfl
  | wake => exact ⟨hl, nofun⟩
  | finish hu => exact ⟨hother rfl (by simp [hu]), hout⟩
  | enter hu => exact ⟨hother rfl (by simp [hu]), hout⟩
  | find hu | miss hu | remove hu => exact ⟨hother rfl (by simp [hu]), hout⟩
  | @notify u hu =>
    refine ⟨hother (life_notify _) (by simp [hu]), ?_⟩
    change p.notify.owner ≠ .out
    rcases owner_notify p with ho | ⟨-, -, ho⟩
    · exact ho ▸ hout
    · exact fun hsame ↦ by cases ho.symm.trans hsame
  | exit hu => exact ⟨hother rfl (by simp [hu]), hout⟩
  | kill hm' => cases hm.symm.trans hm'
  | release hm' => cases hm.symm.trans hm'
  | interrupt _ _ hu => rcases hu with hu | hu | hu <;> exact ⟨hother rfl (by simp [hu]), hout⟩
  | caught _ _ hu => exact ⟨hother rfl hu, hout⟩

end Pool

/-- The pool, with its owner and its threads. -/
def pool (n : Nat) : Machine (Pool n) (PoolAct n) where
  init := .new n
  step := Pool.step

/-- What there is to say of `Thread` objects and of the end of the destructor: no object is deleted
twice, and those off the list have been deleted; one that has been deleted and is still on the list
is that of the thread that has the mutex, so that nobody else comes across it; and the owner goes on
only after all of them have been deleted, when no thread has anything to do any more. -/
structure Pool.WaitsForAll (p : Pool n) : Prop where
  once : p.deleted.Nodup
  off : ∀ t, t ∉ p.threads → t ∈ p.deleted
  listed : ∀ t ∈ p.threads, t ∈ p.deleted → p.m = some (.thread t)
  out : p.owner = .out → ∀ t, t ∈ p.deleted ∧ p.life t ≠ .unborn ∧ p.life t ≠ .busy

/-- `UNSAFE_emerg_yank` has not been called before `start`. -/
def PoolAct.Aimed (p : Pool n) : PoolAct n → Prop
  | .kill => p.owner ≠ .ready
  | _ => True

section Runs

variable {p q : Pool n} {acts : List (PoolAct n)}

theorem Pool.sound_of_reachable (h : (pool n).Reachable p) : p.Sound :=
  Machine.invariant _ (Pool.sound_new n) (fun _ _ _ hs hstep ↦ hs.step hstep) h

private theorem Pool.Sound.waitsForAll (h : p.Sound) : p.WaitsForAll where
  once := h.once
  off := h.off
  listed t ht hdel := by
    rw [h.thread]
    rcases h.middle t ht hdel with hl | hl <;> rw [hl] <;> rfl
  out ho t := by
    have ht : t ∉ p.threads := by
      rw [h.out ho]
      exact List.not_mem_nil
    exact ⟨h.off t ht, fun hl ↦ ht (h.listed t (.inl hl)),
      fun hl ↦ ht (h.listed t (.inr hl))⟩

/-- For any number of threads and any interleaving, with signals or without: the destructor waits
for all threads, and every `Thread` is deleted once. -/
theorem waitsForAll_of_reachable (h : (pool n).Reachable p) : p.WaitsForAll :=
  (Pool.sound_of_reachable h).waitsForAll

/-- Both threads are sent a signal: `u` before it has anything to do with the list, `t` when it has
deleted its `Thread` and not yet taken it off the list. -/
def yanked (t u : Fin n) : List (PoolAct n) :=
  [.start, .create, .create, .unlock, .destroy, .test, .finish t, .yank, .kill, .kill, .release,
    .interrupt u, .enter t, .scan t, .interrupt t]

theorem waitsForAll_of_reachable_yanked : ∃ p, (pool 2).run (.new 2) (yanked 0 1) = some p ∧
    p.life 0 = .caught ∧ p.deleted = [0] ∧ p.threads = [0, 1] ∧ p.WaitsForAll := by
  obtain ⟨p, hp, hl, hdel, hthreads⟩ : ∃ p, (pool 2).run (.new 2) (yanked 0 1) = some p ∧
      p.life 0 = .caught ∧ p.deleted = [0] ∧ p.threads = [0, 1] := ⟨_, rfl, rfl, rfl, rfl⟩
  exact ⟨p, hp, hl, hdel, hthreads, waitsForAll_of_reachable (n := 2) ⟨yanked 0 1, hp⟩⟩

/-- Without further signals, a pool with no thread caught comes to an end: whatever is done, the
owner gets out of the destructor, or it has not been for long and can go on. -/
theorem comesToEnd_of_uncaught (h : (pool n).Reachable p) (hu : p.Uncaught)
    (hdrains : ∀ a ∈ acts, a.drains = true) (hrun : (pool n).run p acts = some q) :
    (∃ pre r, pre <+: acts ∧ (pool n).run p pre = some r ∧ r.owner = .out) ∨
      acts.length ≤ p.left ∧ ∃ a, a.drains = true ∧ (q.step a).isSome := by
  rcases Machine.passes_of_progress (pool n) (J := fun p ↦ p.Sound ∧ p.Uncaught)
    (G := fun p ↦ p.owner = .out) (D := fun a ↦ a.drains = true) (μ := Pool.left)
    (fun s a s' hs _ ha hstep ↦ ⟨⟨hs.1.step hstep, hs.2.step ha hstep⟩,
      Pool.left_lt_of_drains hs.1 ha hstep⟩)
    (fun s hs hin ↦ hs.1.goesOn hs.2 hin) ⟨Pool.sound_of_reachable h, hu⟩ hdrains hrun with
    hout | ⟨hlen, hnext⟩
  · exact .inl hout
  · exact .inr ⟨by omega, hnext⟩

/-- One thread is created, and the owner waits for it. -/
def toSleep : List (PoolAct 1) := [.start, .create, .unlock, .destroy, .test]

theorem comesToEnd_of_uncaught_toSleep : ∃ q : Pool 1,
    (∃ pre r, pre <+: toSleep ∧ (pool 1).run (.new 1) pre = some r ∧ r.owner = .out) ∨
      toSleep.length ≤ (Pool.new 1).left ∧ ∃ a, a.drains = true ∧ (q.step a).isSome :=
  ⟨_, comesToEnd_of_uncaught (n := 1) (p := .new 1) ⟨[], rfl⟩ nofun
    (by decide : ∀ a ∈ toSleep, a.drains = true) rfl⟩

/-- The owner can still get out of the destructor if and only if it is out, or no thread is caught
by a signal in its own critical section. -/
theorem leaves_iff_uncaught (h : (pool n).Reachable p) :
    (∃ acts q, (pool n).run p acts = some q ∧ q.owner = .out) ↔ p.owner = .out ∨ p.Uncaught := by
  have hs := Pool.sound_of_reachable h
  constructor
  · rintro ⟨acts, q, hrun, hout⟩
    by_contra hnot
    obtain ⟨hin, hcaught⟩ := not_or.mp hnot
    obtain ⟨t, ht⟩ := not_forall.mp hcaught
    have hstuck := Machine.keeps_to_end (pool n)
      (P := fun p ↦ p.Sound ∧ p.life t = .caught ∧ p.owner ≠ .out)
      (fun s a s' hs hstep ↦ ⟨hs.1.step hstep, hs.1.stuck hs.2.1 hs.2.2 hstep⟩)
      ⟨hs, not_not.mp ht, hin⟩ hrun
    exact hstuck.2.2 hout
  · rintro (hout | hu)
    · exact ⟨[], p, rfl, hout⟩
    · obtain ⟨acts, q, -, hrun, hout⟩ := Machine.reaches_of_progress (pool n)
        (J := fun p ↦ p.Sound ∧ p.Uncaught) (G := fun p ↦ p.owner = .out)
        (D := fun a ↦ a.drains = true) (μ := Pool.left)
        (fun s a s' hs _ ha hstep ↦ ⟨⟨hs.1.step hstep, hs.2.step ha hstep⟩,
          Pool.left_lt_of_drains hs.1 ha hstep⟩)
        (fun s hs hin ↦ hs.1.goesOn hs.2 hin) ⟨hs, hu⟩
      exact ⟨acts, q, hrun, hout⟩

/-- The thread that has been caught keeps the owner in the destructor. -/
theorem leaves_iff_uncaught_yanked : ∃ p, (pool 2).run (.new 2) (yanked 0 1) = some p ∧
    ¬ ∃ acts q, (pool 2).run p acts = some q ∧ q.owner = .out := by
  obtain ⟨p, hp, ho, hl⟩ : ∃ p, (pool 2).run (.new 2) (yanked 0 1) = some p ∧ p.owner = .asleep ∧
      p.life 0 = .caught := ⟨_, rfl, rfl, rfl⟩
  refine ⟨p, hp, fun hleaves ↦ ?_⟩
  rcases (leaves_iff_uncaught (n := 2) ⟨yanked 0 1, hp⟩).mp hleaves with hout | huncaught
  · cases ho.symm.trans hout
  · exact huncaught 0 hl

/-- A step sends no signal into the blue if and only if it comes after `start`. -/
private theorem Pool.wild_step (h : p.Sound) (hwild : p.wild = 0) {a : PoolAct n}
    (hstep : p.step a = some q) : q.wild = 0 ↔ a.Aimed p := by
  cases step_moves hstep with
  | @kill t rest hm =>
    have hborn : p.life t = .unborn ↔ p.owner = .ready := by
      rw [h.unborn]
      have hout := h.owner
      rw [hm] at hout
      cases ho : p.owner with
      | starting rest =>
        rw [ho] at hout
        simp [Owner.inside] at hout
      | ready => simp [Owner.unborn]
      | _ => simp [Owner.unborn]
    simp only [PoolAct.Aimed, ne_eq, ← hborn, Pool.send]
    split
    · next hl => simp [hl]
    · next hl => simp [hl, hwild]
  | notify =>
    refine iff_of_true ?_ trivial
    change p.notify.wild = 0
    unfold Pool.notify
    split <;> exact hwild
  | _ => exact iff_of_true hwild trivial

/-- In all states of a run no signal has been sent to a thread that did not exist if and only if
in every step of the run that sends one the owner has been through `start`. -/
theorem wild_iff_aimed (acts : List (PoolAct n)) :
    (pool n).AllStates (fun p ↦ p.wild = 0) (pool n).init acts ↔
      (pool n).AllSteps (fun p a ↦ a.Aimed p) (pool n).init acts := by
  apply Machine.allStates_iff_allSteps (J := Pool.Sound)
  · intro s a s' hwild hs hstep
    exact Pool.wild_step hs hwild hstep
  · intro s a s' _ hs _ hstep
    exact hs.step hstep
  · rfl
  · exact Pool.sound_new n

end Runs

end Filth.Sched
