import Filth.Queue.LockFree
import Mathlib.Data.Fintype.Basic

/-!
# The queue with two locks

`DoubleLockedQueue`, `src/DoubleLockedQueue.hpp:14–69`. A dequeueing call holds `front` from its
test until it has taken a value or gone to sleep, and nothing but a push can come in between, which
is as good as one before or after: so this is one step. `enq` holds `back`, and calls of the other
kind can come between its test, its push and its signal, for which it takes `front` as well.
-/

namespace Filth.DoubleLocked

open Base
open LockFree (Ret)

/-- Where a thread is, `src/DoubleLockedQueue.hpp:30–69`: what it does next is named. -/
inductive Pc (V : Type) where
  /-- No call, and the result of the last one. -/
  | idle (ret : Option (Ret V))
  /-- `back.lock()` -/
  | enqLock (v : V)
  /-- `dosignal = q.empty()` -/
  | enqTest (v : V)
  /-- `q.push(t)` -/
  | enqPush (v : V) (dosignal : Bool)
  /-- `nonempty.signal()`, with `front` locked -/
  | enqSignal
  /-- `back.unlock()` -/
  | enqUnlock
  /-- the test of the queue, and what follows it; `wait` tells `wait_deq` from `nowait_deq` -/
  | deq (wait : Bool)
  /-- `nonempty.wait()`, asleep -/
  | asleep
  /-- the next test of the queue after `nonempty.wait()`, and what follows it -/
  | woken
  deriving DecidableEq, Repr

/-- The queue and the threads that use it, `src/DoubleLockedQueue.hpp:19–22`. -/
structure Queue (T V : Type) where
  q : List V
  /-- Who has locked `back`. -/
  back : Option T
  pc : T → Pc V

/-- Calls, and steps of a thread in a call. A signal wakes up a thread that is asleep, if there is
one; a thread may also wake up by itself. -/
inductive QueueAct (T V : Type) where
  | enq (t : T) (v : V)
  | deq (t : T) (wait : Bool)
  | go (t : T)
  | signal (t : T) (sleeper : Option T)
  | wake (t : T)
  deriving DecidableEq, Repr

/-- The thread sleeps. -/
def Pc.isAsleep {V : Type} : Pc V → Bool
  | asleep => true
  | _ => false

/-- The thread has been woken up and will look at the queue, or will wake somebody up. -/
def Pc.attends {V : Type} : Pc V → Bool
  | enqPush _ true | enqSignal | woken => true
  | _ => false

namespace Queue

variable {T V : Type}

/-- The constructor, `src/DoubleLockedQueue.hpp:24`. -/
def new : Queue T V := { q := [], back := none, pc := fun _ ↦ .idle none }

/-- Nobody waits. -/
def NoSleeper (s : Queue T V) : Prop := ∀ t, (s.pc t).isAsleep = false

instance [Fintype T] (s : Queue T V) : Decidable s.NoSleeper :=
  inferInstanceAs (Decidable (∀ t, (s.pc t).isAsleep = false))

variable [DecidableEq T]

/-- A thread goes on. -/
def goto (s : Queue T V) (t : T) (pc : Pc V) : Queue T V :=
  { s with pc := Function.update s.pc t pc }

/-- The test of the queue by a dequeueing call, and what follows it;
`src/DoubleLockedQueue.hpp:45–69`. -/
def take (s : Queue T V) (t : T) (wait : Bool) : Queue T V :=
  match s.q with
  | [] => s.goto t (if wait then .asleep else .idle (some .nothing))
  | v :: q => { s with q }.goto t (.idle (some (.got v)))

/-- One step of a thread, `src/DoubleLockedQueue.hpp:30–69`. -/
def go (s : Queue T V) (t : T) : Option (Queue T V) :=
  match s.pc t with
  | .idle _ | .enqSignal | .asleep => none
  | .enqLock v =>
    if s.back = none then some ({ s with back := some t }.goto t (.enqTest v)) else none
  | .enqTest v => some (s.goto t (.enqPush v s.q.isEmpty))
  | .enqPush v dosignal =>
    some ({ s with q := s.q ++ [v] }.goto t (if dosignal then .enqSignal else .enqUnlock))
  | .enqUnlock => some ({ s with back := none }.goto t (.idle (some .enqueued)))
  | .deq wait => some (s.take t wait)
  | .woken => some (s.take t true)

/-- One step. -/
def step [Fintype T] (s : Queue T V) : QueueAct T V → Option (Queue T V)
  | .enq t v =>
    match s.pc t with
    | .idle _ => some (s.goto t (.enqLock v))
    | _ => none
  | .deq t wait =>
    match s.pc t with
    | .idle _ => some (s.goto t (.deq wait))
    | _ => none
  | .go t => s.go t
  | .signal t sleeper =>
    match s.pc t, sleeper with
    | .enqSignal, none => if s.NoSleeper then some (s.goto t .enqUnlock) else none
    | .enqSignal, some u =>
      if (s.pc u).isAsleep then some ((s.goto u .woken).goto t .enqUnlock) else none
    | _, _ => none
  | .wake t => if (s.pc t).isAsleep then some (s.goto t .woken) else none

/-- What a step can be: one case for every way on from a place. -/
inductive Moves [Fintype T] (s : Queue T V) : QueueAct T V → Queue T V → Prop where
  | enq {t v ret} (hp : s.pc t = .idle ret) : Moves s (.enq t v) (s.goto t (.enqLock v))
  | deq {t wait ret} (hp : s.pc t = .idle ret) : Moves s (.deq t wait) (s.goto t (.deq wait))
  | enqLock {t v} (hp : s.pc t = .enqLock v) (hfree : s.back = none) :
      Moves s (.go t) ({ s with back := some t }.goto t (.enqTest v))
  | enqTest {t v} (hp : s.pc t = .enqTest v) :
      Moves s (.go t) (s.goto t (.enqPush v s.q.isEmpty))
  | enqPush {t v} (hp : s.pc t = .enqPush v true) :
      Moves s (.go t) ({ s with q := s.q ++ [v] }.goto t .enqSignal)
  | enqMore {t v} (hp : s.pc t = .enqPush v false) :
      Moves s (.go t) ({ s with q := s.q ++ [v] }.goto t .enqUnlock)
  | enqUnlock {t} (hp : s.pc t = .enqUnlock) :
      Moves s (.go t) ({ s with back := none }.goto t (.idle (some .enqueued)))
  | nothing {t} (hp : s.pc t = .deq false) (hq : s.q = []) :
      Moves s (.go t) (s.goto t (.idle (some .nothing)))
  | sleep {t} (hp : s.pc t = .deq true ∨ s.pc t = .woken) (hq : s.q = []) :
      Moves s (.go t) (s.goto t .asleep)
  | got {t wait v q} (hp : s.pc t = .deq wait) (hq : s.q = v :: q) :
      Moves s (.go t) ({ s with q }.goto t (.idle (some (.got v))))
  | gotWoken {t v q} (hp : s.pc t = .woken) (hq : s.q = v :: q) :
      Moves s (.go t) ({ s with q }.goto t (.idle (some (.got v))))
  | signal {t} (hp : s.pc t = .enqSignal) (hnone : s.NoSleeper) :
      Moves s (.signal t none) (s.goto t .enqUnlock)
  | wakeUp {t u} (hp : s.pc t = .enqSignal) (hu : (s.pc u).isAsleep = true) :
      Moves s (.signal t (some u)) ((s.goto u .woken).goto t .enqUnlock)
  | wake {t} (hp : (s.pc t).isAsleep = true) : Moves s (.wake t) (s.goto t .woken)

theorem step_moves [Fintype T] {s s' : Queue T V} {a : QueueAct T V} (h : s.step a = some s') :
    s.Moves a s' := by
  cases a with
  | enq t v =>
    simp only [step] at h
    split at h
    · next hp => cases h; exact .enq hp
    · cases h
  | deq t wait =>
    simp only [step] at h
    split at h
    · next hp => cases h; exact .deq hp
    · cases h
  | go t =>
    simp only [step, go] at h
    split at h
    case h_1 | h_2 | h_3 => cases h
    case h_4 hp =>
      split at h
      · next hfree => cases h; exact .enqLock hp hfree
      · cases h
    case h_5 hp => cases h; exact .enqTest hp
    case h_6 dosignal hp =>
      cases h
      cases dosignal
      · exact .enqMore hp
      · exact .enqPush hp
    case h_7 hp => cases h; exact .enqUnlock hp
    case h_8 wait hp =>
      cases h
      unfold take
      split
      · next hq =>
        cases wait
        · exact .nothing hp hq
        · exact .sleep (.inl hp) hq
      · next hq => exact .got hp hq
    case h_9 hp =>
      cases h
      unfold take
      split
      · next hq => exact .sleep (.inr hp) hq
      · next hq => exact .gotWoken hp hq
  | signal t sleeper =>
    simp only [step] at h
    split at h
    · next hp =>
      split at h
      · next hnone => cases h; exact .signal hp hnone
      · cases h
    · next hp =>
      split at h
      · next hu => cases h; exact .wakeUp hp hu
      · cases h
    · cases h
  | wake t =>
    simp only [step] at h
    split at h
    · next hp => cases h; exact .wake hp
    · cases h

/-! ### Sleepers -/

/-- Somebody other than a given thread has been woken up and will look at the queue, or will wake
somebody up. -/
def AttendedBut (s : Queue T V) (t : T) : Prop := ∃ u, u ≠ t ∧ (s.pc u).attends = true

/-- Nobody sleeps while there is something to be had and nobody is going to wake him up. -/
def Attended (s : Queue T V) : Prop :=
  s.q ≠ [] → ∀ t, (s.pc t).isAsleep = true → ∃ u, (s.pc u).attends = true

/-- Sleepers are not left alone: a value that is pushed without a signal is pushed while nobody
sleeps or somebody has been woken up, and who has been woken up and leaves values behind leaves them
while nobody sleeps or somebody else attends to them. -/
def Relays (s : Queue T V) : QueueAct T V → Prop
  | .go t =>
    match s.pc t with
    | .enqPush _ false => ∀ u, (s.pc u).isAsleep = true → s.AttendedBut t
    | .woken => 1 < s.q.length → ∀ u, (s.pc u).isAsleep = true → s.AttendedBut t
    | _ => True
  | _ => True

variable {s s₁ s' : Queue T V} {t u : T} {pc : Pc V}

theorem pc_goto_self (s : Queue T V) (t : T) (pc : Pc V) : (s.goto t pc).pc t = pc :=
  Function.update_self _ _ _

theorem pc_goto_of_ne (s : Queue T V) (h : u ≠ t) (pc : Pc V) : (s.goto t pc).pc u = s.pc u :=
  Function.update_of_ne h _ _

omit [DecidableEq T] in
private theorem attended_of_nil (h : s.q = []) : s.Attended := fun hne ↦ absurd h hne

/-- A thread goes to a place where it attends to the others. -/
theorem attended_goto (hp : pc.attends = true) : (s.goto t pc).Attended :=
  fun _ _ _ ↦ ⟨t, by rw [pc_goto_self, hp]⟩

/-- A thread that attended to nobody goes on and does not sleep. -/
theorem Attended.goto (h : s.Attended) (hpc : s₁.pc = s.pc) (hq : s₁.q ≠ [] → s.q ≠ [])
    (hp : pc.isAsleep = false) (ht : (s.pc t).attends = false) : (s₁.goto t pc).Attended := by
  intro hne u hu
  have hut : u ≠ t := by
    rintro rfl
    rw [pc_goto_self, hp] at hu
    cases hu
  rw [pc_goto_of_ne s₁ hut, hpc] at hu
  obtain ⟨w, hw⟩ := h (hq hne) u hu
  have hwt : w ≠ t := by
    rintro rfl
    cases ht.symm.trans hw
  exact ⟨w, by rw [pc_goto_of_ne s₁ hwt, hpc, hw]⟩

/-- A thread goes on and leaves the sleepers to the others. -/
theorem attended_goto_iff (hpc : s₁.pc = s.pc) (ht : (s.pc t).isAsleep = false)
    (hp : pc.isAsleep = false) (hp' : pc.attends = false) : (s₁.goto t pc).Attended ↔
      (s₁.q ≠ [] → ∀ u, (s.pc u).isAsleep = true → s.AttendedBut t) := by
  have hne {u : T} {b : Bool} {f : Pc V → Bool} (hf : f pc = !b)
      (hu : f ((s₁.goto t pc).pc u) = b) : u ≠ t := by
    rintro rfl
    rw [pc_goto_self, hf] at hu
    cases b <;> cases hu
  constructor
  · intro h hq u hu
    have hut : u ≠ t := by
      rintro rfl
      cases ht.symm.trans hu
    obtain ⟨w, hw⟩ := h hq u (by rw [pc_goto_of_ne s₁ hut, hpc, hu])
    have hwt := hne hp' hw
    exact ⟨w, hwt, by rw [← hw, pc_goto_of_ne s₁ hwt, hpc]⟩
  · intro h hq u hu
    have hut := hne hp hu
    rw [pc_goto_of_ne s₁ hut, hpc] at hu
    obtain ⟨w, hwt, hw⟩ := h hq u hu
    exact ⟨w, by rw [pc_goto_of_ne s₁ hwt, hpc, hw]⟩

/-- A step leaves sleepers alone precisely when it does not relay. -/
theorem attended_step [Fintype T] {a : QueueAct T V} (h : s.Attended) (hstep : s.step a = some s') :
    s'.Attended ↔ s.Relays a := by
  cases step_moves hstep with
  | enq hp | deq hp => exact iff_of_true (h.goto rfl id rfl (by rw [hp]; rfl)) trivial
  | enqLock hp | enqTest hp | enqUnlock hp =>
    exact iff_of_true (h.goto rfl id rfl (by rw [hp]; rfl)) (by simp only [Relays, hp])
  | enqPush hp => exact iff_of_true (attended_goto rfl) (by simp only [Relays, hp])
  | @enqMore t v hp =>
    have hne : s.q ++ [v] ≠ [] := by simp
    have ht : (s.pc t).isAsleep = false := by rw [hp]; rfl
    have hs₁ : ({ s with q := s.q ++ [v] } : Queue T V).pc = s.pc := rfl
    simp only [Relays, hp]
    exact (attended_goto_iff hs₁ ht rfl rfl).trans (forall_prop_of_true hne)
  | nothing hp hq => exact iff_of_true (attended_of_nil hq) (by simp only [Relays, hp])
  | sleep hp hq =>
    refine iff_of_true (attended_of_nil hq) ?_
    rcases hp with hp | hp <;> simp [Relays, hp, hq]
  | @got t wait v q hp hq =>
    refine iff_of_true (h.goto rfl ?_ rfl (by rw [hp]; rfl)) (by simp only [Relays, hp])
    intro _
    rw [hq]
    exact List.cons_ne_nil v q
  | @gotWoken t v q hp hq =>
    have hne : q ≠ [] ↔ 1 < (v :: q).length := by simp [List.length_pos_iff]
    have ht : (s.pc t).isAsleep = false := by rw [hp]; rfl
    have hs₁ : ({ s with q } : Queue T V).pc = s.pc := rfl
    simp only [Relays, hp, hq]
    exact (attended_goto_iff hs₁ ht rfl rfl).trans (imp_congr_left hne)
  | @signal t hp hnone =>
    refine iff_of_true (fun _ u hu ↦ ?_) trivial
    by_cases hut : u = t
    · subst hut
      rw [pc_goto_self] at hu
      cases hu
    · rw [pc_goto_of_ne s hut, hnone u] at hu
      cases hu
  | @wakeUp t u hp hu =>
    have hut : u ≠ t := by
      rintro rfl
      rw [hp] at hu
      cases hu
    refine iff_of_true (fun _ _ _ ↦ ⟨u, ?_⟩) trivial
    rw [pc_goto_of_ne _ hut, pc_goto_self]
    rfl
  | wake => exact iff_of_true (attended_goto rfl) trivial

end Queue

/-- Any number of threads that use a queue. -/
def doubleLockedQueue (T V : Type) [DecidableEq T] [Fintype T] :
    Machine (Queue T V) (QueueAct T V) where
  init := .new
  step := Queue.step

/-- For any number of threads and any interleaving: in all states of the run nobody is left asleep
while there is something to be had, if and only if in every step of the run who pushes without a
signal, or has been woken up and leaves values behind, leaves no sleeper to himself. -/
theorem attended_iff_relays (T V : Type) [DecidableEq T] [Fintype T] (acts : List (QueueAct T V)) :
    (doubleLockedQueue T V).AllStates Queue.Attended (doubleLockedQueue T V).init acts ↔
      (doubleLockedQueue T V).AllSteps Queue.Relays (doubleLockedQueue T V).init acts := by
  apply Machine.allStates_iff_allSteps (J := fun _ ↦ True)
  · intro s a s' h _ hstep
    exact Queue.attended_step h hstep
  · exact fun _ _ _ _ _ _ _ ↦ trivial
  · exact Queue.attended_of_nil rfl
  · trivial

/-- Threads 0 and 1 wait. Thread 2 enqueues 5 and signals, and before thread 0 has looked, it
enqueues 6 and does not signal. Thread 0 takes 5; thread 1 sleeps on, and nobody else is in a
call. -/
theorem not_attended_burst : ¬ ∀ (acts : List (QueueAct (Fin 3) Nat)),
    (doubleLockedQueue (Fin 3) Nat).AllStates Queue.Attended (doubleLockedQueue (Fin 3) Nat).init
      acts := by
  intro h
  let acts : List (QueueAct (Fin 3) Nat) :=
    [.deq 0 true, .go 0, .deq 1 true, .go 1, .enq 2 5, .go 2, .go 2, .go 2, .signal 2 (some 0),
      .go 2, .enq 2 6, .go 2, .go 2, .go 2, .go 2, .go 0]
  obtain ⟨s, hrun, hq, hpc, hnobody⟩ : ∃ s,
      (doubleLockedQueue (Fin 3) Nat).run (doubleLockedQueue (Fin 3) Nat).init acts = some s ∧
        s.q = [6] ∧ s.pc 1 = .asleep ∧ ∀ u, (s.pc u).attends = false :=
    ⟨_, rfl, rfl, rfl, by decide⟩
  obtain ⟨u, hu⟩ := Machine.AllStates.last _ (h acts) hrun (by rw [hq]; decide) 1 (by rw [hpc]; rfl)
  cases (hnobody u).symm.trans hu

end Filth.DoubleLocked
