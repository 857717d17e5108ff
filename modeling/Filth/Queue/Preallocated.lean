import Filth.Base.Progress
import Filth.Queue.Semaphore
import Mathlib.Algebra.BigOperators.Group.Multiset.Basic

/-!
# The store of preallocated objects

`Preallocated`, `src/Preallocated.hpp:19–84`: a class with its own `operator new` and `delete`, which
take memory from a lock-free queue and put it there. `prealloc_init` fills the queue, before there
are any objects, as the constructor of the work map does, `src/FindWork_prealloc.hpp:37–42`, and
`prealloc_deinit` empties it when nobody else uses it any more, as the destructor does,
`src/FindWork_prealloc.hpp:69–75`. Each step is one of the queue's, or what is done with the result.
The nodes of the queue get new addresses, as everywhere but on a heap that reuses them; a store that
is filled again is a new one.
-/

namespace Filth.LockFree

variable {T V : Type}

/-- The value that a thread has: it is about to be put into the queue, or has been taken out. -/
def Pc.carries : Pc V → Option V
  | enqTail v _ | enqNext v _ _ | enqTest v _ _ _ | enqLink v _ _ | enqHelp v _ _ _ => some v
  | deqDown _ _ v | deqFree _ _ v | idle (some (.got v)) => some v
  | _ => none

/-- The thread is in `enq`, or has returned from it. -/
def Pc.enqueues : Pc V → Bool
  | enqTail .. | enqNext .. | enqTest .. | enqLink .. | enqSwing .. | enqUp | enqHelp ..
  | idle (some .enqueued) => true
  | _ => false

/-- The thread is in `nowait_deq`, or has returned from it. -/
def Pc.dequeues : Pc V → Bool
  | deqHead wait | deqTail wait _ | deqAgain wait _ _ | deqNext wait _ _ _ | deqTest wait _ _ _
  | deqHelp wait _ _ | deqRead wait _ _ | deqSwing wait _ _ _ | deqDown wait _ _
  | deqFree wait _ _ => !wait
  | idle (some (.got _)) | idle (some .nothing) => true
  | _ => false

/-- The thread has found no next node; if `head` has not moved, it returns with nothing. -/
def Pc.gaveUp : Pc V → Bool
  | deqTest false _ _ none | idle (some .nothing) => true
  | _ => false

namespace Queue

variable {s s' : Queue T V} {t : T} [DecidableEq T]

/-- A value is in the queue, or a thread has it. -/
theorem contents_go (h : s.Sound) (hgo : s.go t = some s') :
    (s'.contents : Multiset V) + (s'.pc t).carries.toList =
      s.contents + (s.pc t).carries.toList := by
  cases go_moves hgo with
  | @link v n last d hp hd hlast =>
    rw [pc_goto_self, hp]
    change (((s.link last n v).contents : List V) : Multiset V) + 0 = s.contents + ({v} : Multiset V)
    rw [h.contents_link, ← Multiset.coe_add, add_zero]
    rfl
  | @swing wait first next v hp hhead =>
    rw [pc_goto_self, hp, h.contents_swing hp hhead]
    change ((s.swing next v).contents : Multiset V) + ({v} : Multiset V) = (v :: _ : List V) + 0
    rw [add_zero, add_comm]
    rfl
  | @enqSwing n last hp =>
    rw [pc_goto_self, hp]
    exact congrArg (fun l : List V ↦ (l : Multiset V) + 0) (contents_casTail s last n)
  | @enqHelp v n last next hp =>
    rw [pc_goto_self, hp]
    exact congrArg (fun l : List V ↦ (l : Multiset V) + {v}) (contents_casTail s last next)
  | @deqHelp wait last next hp =>
    rw [pc_goto_self, hp]
    exact congrArg (fun l : List V ↦ (l : Multiset V) + 0) (contents_casTail s last next)
  | enqTail hp | enqNext hp | enqLast hp | enqLags hp | enqMoved hp | linkLost hp | enqUp hp
  | deqHead hp | deqTail hp | deqAgain hp | deqNext hp | nothing hp | sleep hp | deqLags hp
  | deqFound hp | deqMoved hp | deqRead hp | swingLost hp | deqDown hp | deqFree hp | waitDown hp
  | waitUp hp =>
    rw [pc_goto_self, hp]
    rfl

/-- A step of `enq` leads on in it, or to its end. -/
private theorem enqueues_go (hgo : s.go t = some s') (h : (s.pc t).enqueues = true) :
    (s'.pc t).enqueues = true := by
  cases go_moves hgo with
  | enqTail hp | enqNext hp | enqLast hp | enqLags hp | enqMoved hp | link hp | linkLost hp
  | enqSwing hp | enqUp hp | enqHelp hp =>
    rw [pc_goto_self]
    rfl
  | deqHead hp | deqTail hp | deqAgain hp | deqNext hp | nothing hp | sleep hp | deqLags hp
  | deqFound hp | deqMoved hp | deqHelp hp | deqRead hp | swing hp | swingLost hp | deqDown hp
  | deqFree hp | waitDown hp | waitUp hp =>
    rw [hp] at h
    cases h

/-- And so it does in `nowait_deq`. -/
private theorem dequeues_go (hgo : s.go t = some s') (h : (s.pc t).dequeues = true) :
    (s'.pc t).dequeues = true := by
  cases go_moves hgo with
  | deqHead hp | deqTail hp | deqAgain hp | deqNext hp | deqLags hp | deqFound hp | deqMoved hp
  | deqHelp hp | deqRead hp | swing hp | swingLost hp | deqDown hp =>
    rw [hp] at h
    rw [pc_goto_self]
    exact h
  | nothing hp | deqFree hp =>
    rw [pc_goto_self]
    rfl
  | enqTail hp | enqNext hp | enqLast hp | enqLags hp | enqMoved hp | link hp | linkLost hp
  | enqSwing hp | enqUp hp | enqHelp hp | sleep hp | waitDown hp | waitUp hp =>
    rw [hp] at h
    cases h

/-- A thread finds no next node when there is nothing in the queue; and it goes on from there, or
begins again. -/
theorem gaveUp_go (h : s.Sound) (hgo : s.go t = some s') (hup : (s'.pc t).gaveUp = true) :
    (s.pc t).carries = none ∧ ((s.pc t).gaveUp = true ∨ s.contents = []) := by
  cases go_moves hgo with
  | nothing hp =>
    rw [hp]
    exact ⟨rfl, .inl rfl⟩
  | @deqNext wait first last again d hp hd =>
    rw [pc_goto_self] at hup
    have hnext : d.next = none := by
      cases hnext : d.next with
      | none => rfl
      | some x =>
        rw [hnext] at hup
        cases wait <;> cases hup
    exact ⟨by rw [hp]; rfl, .inr (h.empty_of_deqNext hp hd hnext)⟩
  | enqTail | enqNext | enqLast | enqLags | enqMoved | link | linkLost | enqSwing | enqUp | enqHelp
  | deqHead | deqTail | deqAgain | sleep | deqLags | deqFound | deqMoved | deqHelp | deqRead | swing
  | swingLost | deqDown | deqFree | waitDown | waitUp =>
    rw [pc_goto_self] at hup
    cases hup

end Queue

end Filth.LockFree

namespace Filth.Prealloc

open Base
open LockFree (Queue Pc Ret lockFreeQueue)

/-- Pieces of memory of the size of an object, in the order in which they were got. -/
abbrev Block := Nat

/-- How memory was got, `src/Preallocated.hpp:51–82`: by `new uint8_t[]`, or by `::operator new`. -/
inductive Form where
  | array | plain
  deriving DecidableEq, Repr

/-- The function of the class that a thread is in, `src/Preallocated.hpp:51–82`. -/
inductive Use where
  | idle | init | new | delete | deinit
  deriving DecidableEq, Repr

/-- Before there are objects, while there are, and since `prealloc_deinit` has been called. -/
inductive Phase where
  | filling | inUse | closed
  deriving DecidableEq, Repr

/-- The store, the threads that use it, and where the memory is; `src/Preallocated.hpp:45`. -/
structure Store (T : Type) where
  queue : Queue T Block
  use : T → Use
  phase : Phase
  forms : List Form
  /-- The objects that there are. -/
  live : List Block
  /-- What has been given back with `delete[]`. -/
  gone : List Block

/-- Calls, steps in the queue, and what comes after them. -/
inductive StoreAct (T : Type) where
  /-- One time through the loop of `prealloc_init`. -/
  | init (t : T)
  | new (t : T)
  | delete (t : T) (b : Block)
  | deinit (t : T)
  | go (t : T)
  | ret (t : T)
  deriving DecidableEq, Repr

namespace Store

variable {T : Type}

/-- Nothing has been preallocated. -/
def new : Store T :=
  { queue := .new 0, use := fun _ ↦ .idle, phase := .filling, forms := [], live := [], gone := [] }

variable [DecidableEq T]

/-- A thread is in another function. -/
def goto (s : Store T) (t : T) (use : Use) : Store T :=
  { s with use := Function.update s.use t use }

/-- Memory that has not been there before. -/
def grow (s : Store T) (form : Form) : Store T := { s with forms := s.forms ++ [form] }

/-- What a thread does with the result of `enq` or `nowait_deq`, `src/Preallocated.hpp:51–82`. The
loop of `prealloc_deinit` calls `nowait_deq` again. -/
def ret (s : Store T) (t : T) : Option (Store T) :=
  match s.use t, s.queue.pc t with
  | .init, .idle _ | .delete, .idle _ => some (s.goto t .idle)
  | .new, .idle (some (.got b)) => some ({ s with live := b :: s.live }.goto t .idle)
  | .new, .idle _ =>
    some ({ s.grow .plain with live := s.forms.length :: s.live }.goto t .idle)
  | .deinit, .idle (some (.got b)) => do
    let queue ← s.queue.step (.deq t false)
    return { s with queue, gone := s.gone ++ [b] }
  | .deinit, .idle _ => some (s.goto t .idle)
  | _, _ => none

/-- One step, `src/Preallocated.hpp:51–82`. A store is filled before the first object, emptied when
nobody is in a call, and not used again. -/
def step [Fintype T] (s : Store T) : StoreAct T → Option (Store T)
  | .init t =>
    if s.use t = .idle ∧ s.phase = .filling then do
      let queue ← s.queue.step (.enq t s.forms.length)
      return ({ s with queue }.grow .array).goto t .init
    else none
  | .new t =>
    if s.use t = .idle ∧ s.phase ≠ .closed ∧ ∀ u, s.use u ≠ .init then do
      let queue ← s.queue.step (.deq t false)
      return { s with queue, phase := .inUse }.goto t .new
    else none
  | .delete t b =>
    if s.use t = .idle ∧ s.phase ≠ .closed ∧ (∀ u, s.use u ≠ .init) ∧ b < s.forms.length then do
      let queue ← s.queue.step (.enq t b)
      return { s with queue, phase := .inUse, live := s.live.erase b }.goto t .delete
    else none
  | .deinit t =>
    if s.phase ≠ .closed ∧ ∀ u, s.use u = .idle then do
      let queue ← s.queue.step (.deq t false)
      return { s with queue, phase := .closed }.goto t .deinit
    else none
  | .go t => do
    let queue ← s.queue.go t
    return { s with queue }
  | .ret t => s.ret t

end Store

/-- Any number of threads. -/
def preallocated (T : Type) [Fintype T] [DecidableEq T] : Machine (Store T) (StoreAct T) where
  init := .new
  step := Store.step

namespace Store

variable {T : Type}

/-! ### What a step can do -/

/-- What a step is, by the function that it belongs to. -/
inductive Moves [DecidableEq T] (s : Store T) : StoreAct T → Store T → Prop where
  | init {t r} (hu : s.use t = .idle) (hphase : s.phase = .filling) (hp : s.queue.pc t = .idle r) :
      Moves s (.init t) (({ s with
        queue := (s.queue.alloc s.forms.length).goto t (.enqTail s.forms.length s.queue.heap.length)
          }.grow .array).goto t .init)
  | new {t r} (hu : s.use t = .idle) (hphase : s.phase ≠ .closed) (hinit : ∀ u, s.use u ≠ .init)
      (hp : s.queue.pc t = .idle r) :
      Moves s (.new t) ({ s with
        queue := s.queue.goto t (.deqHead false), phase := .inUse }.goto t .new)
  | delete {t b r} (hu : s.use t = .idle) (hphase : s.phase ≠ .closed)
      (hinit : ∀ u, s.use u ≠ .init) (hb : b < s.forms.length) (hp : s.queue.pc t = .idle r) :
      Moves s (.delete t b) ({ s with
        queue := (s.queue.alloc b).goto t (.enqTail b s.queue.heap.length)
        phase := .inUse
        live := s.live.erase b }.goto t .delete)
  | deinit {t r} (hphase : s.phase ≠ .closed) (hidle : ∀ u, s.use u = .idle)
      (hp : s.queue.pc t = .idle r) :
      Moves s (.deinit t) ({ s with
        queue := s.queue.goto t (.deqHead false), phase := .closed }.goto t .deinit)
  | go {t queue} (h : s.queue.go t = some queue) : Moves s (.go t) { s with queue }
  | put {t r} (hu : s.use t = .init ∨ s.use t = .delete) (hp : s.queue.pc t = .idle r) :
      Moves s (.ret t) (s.goto t .idle)
  | got {t b} (hu : s.use t = .new) (hp : s.queue.pc t = .idle (some (.got b))) :
      Moves s (.ret t) ({ s with live := b :: s.live }.goto t .idle)
  | grown {t r} (hu : s.use t = .new) (hp : s.queue.pc t = .idle r)
      (hnot : (s.queue.pc t).carries = none) :
      Moves s (.ret t) ({ s.grow .plain with live := s.forms.length :: s.live }.goto t .idle)
  | back {t b} (hu : s.use t = .deinit) (hp : s.queue.pc t = .idle (some (.got b))) :
      Moves s (.ret t) { s with
        queue := s.queue.goto t (.deqHead false), gone := s.gone ++ [b] }
  | drained {t r} (hu : s.use t = .deinit) (hp : s.queue.pc t = .idle r)
      (hnot : (s.queue.pc t).carries = none) : Moves s (.ret t) (s.goto t .idle)

variable [DecidableEq T] {s s' : Store T} {t u : T} {b : Block} {a : StoreAct T}

private theorem ret_moves (h : s.ret t = some s') : Moves s (.ret t) s' := by
  unfold ret at h
  split at h
  case h_1 hu hp =>
    cases h
    exact .put (.inl hu) hp
  case h_2 hu hp =>
    cases h
    exact .put (.inr hu) hp
  case h_3 hu hp =>
    cases h
    exact .got hu hp
  case h_4 r hnot hu hp =>
    cases h
    refine .grown hu hp ?_
    rw [hp]
    unfold Pc.carries
    split <;> simp_all
  case h_5 hu hp =>
    obtain ⟨queue, hqueue, h⟩ := Option.bind_eq_some_iff.mp h
    cases h
    cases LockFree.Queue.steps_of_step hqueue
    exact .back hu hp
  case h_6 r hnot hu hp =>
    cases h
    refine .drained hu hp ?_
    rw [hp]
    unfold Pc.carries
    split <;> simp_all
  case h_7 => cases h

theorem step_moves [Fintype T] (h : s.step a = some s') : Moves s a s' := by
  cases a with
  | init t =>
    simp only [step] at h
    split at h
    · next hboth =>
      obtain ⟨queue, hqueue, h⟩ := Option.bind_eq_some_iff.mp h
      cases h
      cases LockFree.Queue.steps_of_step hqueue with
      | enq hp => exact .init hboth.1 hboth.2 hp
    · cases h
  | new t =>
    simp only [step] at h
    split at h
    · next hall =>
      obtain ⟨queue, hqueue, h⟩ := Option.bind_eq_some_iff.mp h
      cases h
      cases LockFree.Queue.steps_of_step hqueue with
      | deq hp => exact .new hall.1 hall.2.1 hall.2.2 hp
    · cases h
  | delete t b =>
    simp only [step] at h
    split at h
    · next hall =>
      obtain ⟨queue, hqueue, h⟩ := Option.bind_eq_some_iff.mp h
      cases h
      cases LockFree.Queue.steps_of_step hqueue with
      | enq hp => exact .delete hall.1 hall.2.1 hall.2.2.1 hall.2.2.2 hp
    · cases h
  | deinit t =>
    simp only [step] at h
    split at h
    · next hboth =>
      obtain ⟨queue, hqueue, h⟩ := Option.bind_eq_some_iff.mp h
      cases h
      cases LockFree.Queue.steps_of_step hqueue with
      | deq hp => exact .deinit hboth.1 hboth.2 hp
    · cases h
  | go t =>
    obtain ⟨queue, hqueue, h⟩ := Option.bind_eq_some_iff.mp h
    cases h
    exact .go hqueue
  | ret t => exact ret_moves h

/-! ### Who does what when -/

end Store

/-- The thread is in `operator new`. -/
def Use.isNew : Use → Bool
  | new => true
  | _ => false

/-- The thread is in `operator new` or `delete`. -/
def Use.serves : Use → Bool
  | new | delete => true
  | _ => false

/-- What may go on in a phase. -/
def Phase.allows : Phase → Use → Bool
  | _, .idle | filling, .init | inUse, .new | inUse, .delete | closed, .deinit => true
  | _, _ => false

/-- Where a thread is in the queue is where its function has called it. -/
structure Fits (phase : Phase) (use : Use) (pc : Pc Block) : Prop where
  resting : use = .idle → pc.isIdle = true
  putting : use = .init ∨ use = .delete → pc.enqueues = true
  taking : use = .new ∨ use = .deinit → pc.dequeues = true
  allowed : phase.allows use = true

namespace Store

variable {T : Type} {s s' : Store T} {t u : T} {b : Block} {a : StoreAct T}

/-- Each thread is in a function of the phase. Before there are objects all memory is that of
`prealloc_init`, and nothing is given back before `prealloc_deinit`, which is called by one thread
and leaves the queue empty. -/
structure Orderly (s : Store T) : Prop where
  sound : s.queue.Sound
  fits : ∀ t, Fits s.phase (s.use t) (s.queue.pc t)
  filling : s.phase = .filling → .plain ∉ s.forms
  gone : s.phase ≠ .closed → s.gone = []
  alone : s.phase = .closed → ∀ t u, s.use t ≠ .idle → u ≠ t → s.use u = .idle
  empty : s.phase = .closed → (∀ t, s.use t ≠ .idle → (s.queue.pc t).gaveUp = true) →
    s.queue.contents = []

private theorem orderly_new : (new : Store T).Orderly where
  sound := LockFree.Queue.sound_new 0
  fits _ := by
    refine ⟨fun _ ↦ rfl, fun h ↦ ?_, fun h ↦ ?_, rfl⟩ <;> rcases h with h | h <;> cases h
  filling _ := List.not_mem_nil
  gone _ := rfl
  alone h := by cases h
  empty h := by cases h

private theorem carries_of_gaveUp {pc : Pc Block} (h : pc.gaveUp = true) : pc.carries = none := by
  unfold Pc.gaveUp at h
  split at h <;> first | rfl | cases h

private theorem carries_of_put {r : Option (Ret Block)} (h : (Pc.idle r).enqueues = true) :
    (Pc.idle r).carries = none := by
  unfold Pc.enqueues at h
  split at h <;> simp_all [Pc.carries]

variable [DecidableEq T]

/-- One thread goes on, and the others stay where they are. -/
theorem fits_update {phase phase' : Phase} {uses : T → Use} {pcs : T → Pc Block} {use : Use}
    {pc : Pc Block} (h : ∀ u, Fits phase (uses u) (pcs u))
    (hphase : ∀ u, phase.allows (uses u) = true → phase'.allows (uses u) = true)
    (hself : Fits phase' use pc) :
    ∀ u, Fits phase' (Function.update uses t use u) (Function.update pcs t pc u) := by
  intro u
  by_cases hut : u = t
  · subst hut
    rw [Function.update_self, Function.update_self]
    exact hself
  · rw [Function.update_of_ne hut, Function.update_of_ne hut]
    exact ⟨(h u).resting, (h u).putting, (h u).taking, hphase u (h u).allowed⟩

/-- A function returns. -/
private theorem fits_idle {phase : Phase} {uses : T → Use} {pcs : T → Pc Block}
    {r : Option (Ret Block)}
    (h : ∀ u, Fits phase (uses u) (pcs u)) (hp : pcs t = .idle r) :
    ∀ u, Fits phase (Function.update uses t .idle u) (pcs u) := by
  have hself : Fits phase .idle (pcs t) := by
    rw [hp]
    refine ⟨fun _ ↦ rfl, fun h ↦ ?_, fun h ↦ ?_, ?_⟩
    · rcases h with h | h <;> cases h
    · rcases h with h | h <;> cases h
    · cases phase <;> rfl
  have hall := fits_update (t := t) h (fun _ ha ↦ ha) hself
  rwa [Function.update_eq_self] at hall

/-- A thread that goes on in the queue is in a function. -/
theorem Orderly.use_of_go (h : s.Orderly) {queue : Queue T Block}
    (hgo : s.queue.go t = some queue) : s.use t ≠ .idle := by
  intro hidle
  have hpc := (h.fits t).resting hidle
  cases hp : s.queue.pc t with
  | idle r =>
    rw [LockFree.Queue.go, hp] at hgo
    cases hgo
  | _ =>
    rw [hp] at hpc
    cases hpc

theorem Orderly.go (h : s.Orderly) {queue : Queue T Block} (hgo : s.queue.go t = some queue) :
    ({ s with queue } : Store T).Orderly := by
  have huse := h.use_of_go hgo
  refine ⟨h.sound.go hgo, ?_, h.filling, h.gone, h.alone, fun hclosed hup ↦ ?_⟩
  · have hself : Fits s.phase (s.use t) (queue.pc t) := by
      refine ⟨fun hidle ↦ absurd hidle huse, fun hput ↦ ?_, fun htake ↦ ?_, (h.fits t).allowed⟩
      · exact LockFree.Queue.enqueues_go hgo ((h.fits t).putting hput)
      · exact LockFree.Queue.dequeues_go hgo ((h.fits t).taking htake)
    have hpc : queue.pc = Function.update s.queue.pc t (queue.pc t) := by
      funext u
      by_cases hut : u = t
      · rw [hut, Function.update_self]
      · rw [Function.update_of_ne hut]
        exact LockFree.Queue.pc_step_of_ne (a := .go t) (Ne.symm hut) hgo
    have hall := fits_update (t := t) h.fits (fun _ ha ↦ ha) hself
    rwa [Function.update_eq_self, ← hpc] at hall
  · have hself := hup t huse
    have hsame := LockFree.Queue.contents_go h.sound hgo
    rw [carries_of_gaveUp hself] at hsame
    obtain ⟨hnone, hbefore⟩ := LockFree.Queue.gaveUp_go h.sound hgo hself
    have hempty : s.queue.contents = [] := by
      rcases hbefore with hbefore | hnil
      · refine h.empty hclosed fun u hu ↦ ?_
        have hut : u = t := by
          by_contra hne
          exact hu (h.alone hclosed t u huse hne)
        rw [hut]
        exact hbefore
      · exact hnil
    rw [hempty, hnone] at hsame
    simpa using hsame

/-- A call of `enq` begins. -/
theorem fits_enq {use : Use} {phase : Phase} {v n : Block} (huse : use = .init ∨ use = .delete)
    (hphase : phase.allows use = true) : Fits phase use (.enqTail v n) := by
  refine ⟨fun h ↦ ?_, fun _ ↦ rfl, fun h ↦ ?_, hphase⟩
  · rcases huse with rfl | rfl <;> cases h
  · rcases huse with rfl | rfl <;> rcases h with h | h <;> cases h

/-- A call of `nowait_deq` begins. -/
theorem fits_deq {use : Use} {phase : Phase} (huse : use = .new ∨ use = .deinit)
    (hphase : phase.allows use = true) : Fits phase use (.deqHead false) := by
  refine ⟨fun h ↦ ?_, fun h ↦ ?_, fun _ ↦ rfl, hphase⟩
  · rcases huse with rfl | rfl <;> cases h
  · rcases huse with rfl | rfl <;> rcases h with h | h <;> cases h

omit [DecidableEq T] in
/-- The first call of `new` or `delete` ends the first phase. -/
theorem Orderly.allows_inUse (h : s.Orderly) (hphase : s.phase ≠ .closed)
    (hinit : ∀ u, s.use u ≠ .init) (u : T) : Phase.inUse.allows (s.use u) = true := by
  have hallowed := (h.fits u).allowed
  have hnot := hinit u
  cases hp : s.phase <;> rw [hp] at hallowed hphase <;> cases hu : s.use u <;>
    simp_all [Phase.allows]

omit [DecidableEq T] in
/-- In the last phase there is only `prealloc_deinit`. -/
theorem Orderly.use_of_closed (h : s.Orderly) (hclosed : s.phase = .closed) :
    s.use t = .idle ∨ s.use t = .deinit := by
  have hallowed := (h.fits t).allowed
  rw [hclosed] at hallowed
  cases hu : s.use t <;> simp_all [Phase.allows]

/-- A thread leaves its function. -/
theorem Orderly.leave (h : s.Orderly) {r : Option (Ret Block)} (hu : s.use t ≠ .idle)
    (hp : s.queue.pc t = .idle r) (hqueue : s'.queue = s.queue)
    (huse : s'.use = Function.update s.use t .idle) (hphase : s'.phase = s.phase)
    (hfill : s.phase = .filling → .plain ∉ s'.forms) (hgone : s'.gone = s.gone)
    (hlast : s.phase = .closed → (s.queue.pc t).gaveUp = true) : s'.Orderly := by
  have hself (hclosed : s.phase = .closed) {u : T} (hu' : s.use u ≠ .idle) : u = t := by
    by_contra hne
    exact hu' (h.alone hclosed t u hu hne)
  refine ⟨hqueue ▸ h.sound, ?_, fun hf ↦ hfill (hphase ▸ hf), fun ho ↦ ?_, fun hc t' u ht' _ ↦ ?_,
    fun hc _ ↦ ?_⟩
  · rw [hphase, huse, hqueue]
    exact fits_idle h.fits hp
  · rw [hgone]
    exact h.gone (hphase ▸ ho)
  · rw [huse] at ht' ⊢
    by_cases htt : t' = t
    · rw [htt, Function.update_self] at ht'
      exact absurd rfl ht'
    · rw [Function.update_of_ne htt] at ht'
      exact absurd (hself (hphase ▸ hc) ht') htt
  · rw [hphase] at hc
    rw [hqueue]
    refine h.empty hc fun u hu' ↦ ?_
    rw [hself hc hu']
    exact hlast hc

theorem Orderly.step (h : s.Orderly) (hm : Moves s a s') : s'.Orderly := by
  cases hm with
  | @go t queue hgo => exact h.go hgo
  | @init t r hu hphase hp =>
    have hopen : s.phase ≠ .closed := by rw [hphase]; exact Phase.noConfusion
    refine ⟨h.sound.enq t s.forms.length, ?_, fun _ ↦ ?_, h.gone, fun hclosed ↦ ?_,
      fun hclosed ↦ ?_⟩
    · exact fits_update h.fits (fun _ ha ↦ ha) (fits_enq (.inl rfl) (by rw [hphase]; rfl))
    · have hold := h.filling hphase
      change Form.plain ∉ s.forms ++ [Form.array]
      simpa using hold
    · exact absurd hclosed hopen
    · exact absurd hclosed hopen
  | @new t r hu hphase hinit hp =>
    refine ⟨h.sound.goto (.inl rfl) trivial, ?_, fun hfill ↦ ?_, fun _ ↦ h.gone hphase,
      fun hclosed ↦ ?_, fun hclosed ↦ ?_⟩
    · exact fits_update h.fits (fun u _ ↦ h.allows_inUse hphase hinit u) (fits_deq (.inl rfl) rfl)
    · cases hfill
    · cases hclosed
    · cases hclosed
  | @delete t b r hu hphase hinit hb hp =>
    refine ⟨h.sound.enq t b, ?_, fun hfill ↦ ?_, fun _ ↦ h.gone hphase, fun hclosed ↦ ?_,
      fun hclosed ↦ ?_⟩
    · exact fits_update h.fits (fun u _ ↦ h.allows_inUse hphase hinit u) (fits_enq (.inr rfl) rfl)
    · cases hfill
    · cases hclosed
    · cases hclosed
  | @deinit t r hphase hidle hp =>
    refine ⟨h.sound.goto (.inl rfl) trivial, ?_, fun hfill ↦ ?_, fun hopen ↦ absurd rfl hopen,
      fun _ t' u ht' hu ↦ ?_, fun _ hup ↦ ?_⟩
    · refine fits_update h.fits (fun u _ ↦ ?_) (fits_deq (.inr rfl) rfl)
      rw [hidle u]
      rfl
    · cases hfill
    · by_cases htt : t' = t
      · subst htt
        exact (Function.update_of_ne hu _ _).trans (hidle u)
      · exact absurd ((Function.update_of_ne htt _ _).trans (hidle t')) ht'
    · have huse : Function.update s.use t .deinit t ≠ .idle := by
        rw [Function.update_self]
        exact Use.noConfusion
      have hpc : ((s.queue.goto t (.deqHead false)).pc t).gaveUp = true := hup t huse
      rw [LockFree.Queue.pc_goto_self] at hpc
      cases hpc
  | @put t r hu hp =>
    refine h.leave (fun hidle ↦ ?_) hp rfl rfl rfl h.filling rfl fun hclosed ↦ ?_
    · rcases hu with hu | hu <;> cases hidle.symm.trans hu
    · rcases hu with hu | hu <;> rcases h.use_of_closed (t := t) hclosed with hc | hc <;>
        cases hu.symm.trans hc
  | @got t b hu hp =>
    refine h.leave (fun hidle ↦ ?_) hp rfl rfl rfl h.filling rfl fun hclosed ↦ ?_
    · cases hidle.symm.trans hu
    · rcases h.use_of_closed (t := t) hclosed with hc | hc <;> cases hu.symm.trans hc
  | @grown t r hu hp hnot =>
    refine h.leave (fun hidle ↦ ?_) hp rfl rfl rfl (fun hfill ↦ ?_) rfl fun hclosed ↦ ?_
    · cases hidle.symm.trans hu
    · have hallowed := (h.fits t).allowed
      rw [hfill, hu] at hallowed
      cases hallowed
    · rcases h.use_of_closed (t := t) hclosed with hc | hc <;> cases hu.symm.trans hc
  | @drained t r hu hp hnot =>
    refine h.leave (fun hidle ↦ ?_) hp rfl rfl rfl h.filling rfl fun hclosed ↦ ?_
    · cases hidle.symm.trans hu
    · have htake := (h.fits t).taking (.inr hu)
      rw [hp] at htake hnot ⊢
      match r with
      | some .nothing => rfl
  | @back t b hu hp =>
    have hclosed : s.phase = .closed := by
      have hallowed := (h.fits t).allowed
      rw [hu] at hallowed
      cases hphase : s.phase with
      | closed => rfl
      | _ =>
        rw [hphase] at hallowed
        cases hallowed
    refine ⟨h.sound.goto (.inl rfl) trivial, ?_, h.filling, fun hopen ↦ absurd hclosed hopen,
      h.alone, fun _ hup ↦ ?_⟩
    · have hall := fits_update (t := t) h.fits (fun _ ha ↦ ha)
        (fits_deq (.inr hu) (h.fits t).allowed)
      rwa [Function.update_eq_self] at hall
    · have huse : s.use t ≠ .idle := by
        rw [hu]
        exact Use.noConfusion
      have hpc : ((s.queue.goto t (.deqHead false)).pc t).gaveUp = true := hup t huse
      rw [LockFree.Queue.pc_goto_self] at hpc
      cases hpc

/-! ### Where the memory is -/

/-- The block that a thread has: it is about to put it into the queue, or has taken it out. -/
def hand (s : Store T) (t : T) : Option Block :=
  if s.use t = .idle then none else (s.queue.pc t).carries

omit [DecidableEq T] in
private theorem hand_of_idle (h : s.use t = .idle) : s.hand t = none := if_pos h

omit [DecidableEq T] in
private theorem hand_of_ne (h : s.use t ≠ .idle) : s.hand t = (s.queue.pc t).carries := if_neg h

/-- Nothing is in anybody else's hands than before. -/
private theorem hand_eq_update (huse : ∀ u, u ≠ t → s'.use u = s.use u)
    (hpc : ∀ u, u ≠ t → s'.queue.pc u = s.queue.pc u) :
    s'.hand = Function.update s.hand t (s'.hand t) := by
  funext u
  by_cases hut : u = t
  · rw [hut, Function.update_self]
  · rw [Function.update_of_ne hut, hand, hand, huse u hut, hpc u hut]

section Places

variable [Fintype T]

/-- What the objects take, what has been given back, what is in the queue and what is on its way. -/
def places (s : Store T) : Multiset Block :=
  s.live + s.gone + s.queue.contents + ∑ t, ((s.hand t).toList : Multiset Block)

/-- Every block that there has been is in one place. -/
def Kept (s : Store T) : Prop := s.places = Multiset.range s.forms.length

omit [DecidableEq T] in
theorem kept_new : (new : Store T).Kept := by
  have hnone : ∑ t : T, (((new : Store T).hand t).toList : Multiset Block) = 0 :=
    Finset.sum_eq_zero fun t _ ↦ rfl
  rw [Kept, places, hnone]
  rfl

/-- What one thread does to the places. -/
theorem places_step (new : Multiset Block) (huse : ∀ u, u ≠ t → s'.use u = s.use u)
    (hpc : ∀ u, u ≠ t → s'.queue.pc u = s.queue.pc u)
    (hrest : (s'.live + s'.gone + s'.queue.contents : Multiset Block) + (s'.hand t).toList =
      s.live + s.gone + s.queue.contents + (s.hand t).toList + new) :
    s'.places = s.places + new := by
  have hsum := sum_update (fun o : Option Block ↦ (o.toList : Multiset Block)) s.hand t (s'.hand t)
  rw [← hand_eq_update huse hpc] at hsum
  apply add_right_cancel (b := ((s.hand t).toList : Multiset Block))
  calc s'.places + (s.hand t).toList
      = s'.live + s'.gone + s'.queue.contents +
          (∑ u, ((s'.hand u).toList : Multiset Block) + (s.hand t).toList) := by
        rw [places, add_assoc]
    _ = s'.live + s'.gone + s'.queue.contents + (s'.hand t).toList +
          ∑ u, ((s.hand u).toList : Multiset Block) := by
        rw [hsum]
        abel
    _ = s.places + new + (s.hand t).toList := by
        rw [hrest, places]
        abel

/-- A call begins, with a block or without one. -/
theorem places_call {use : Use} {pc : Pc Block} (queue : Queue T Block) (new : Multiset Block)
    (hu : s.use t = .idle) (hne : use ≠ .idle) (hqueue : s'.queue = queue.goto t pc)
    (hold : queue.pc = s.queue.pc) (huse : s'.use = Function.update s.use t use)
    (hrest : (s'.live + s'.gone + queue.contents : Multiset Block) + pc.carries.toList =
      s.live + s.gone + s.queue.contents + new) : s'.places = s.places + new := by
  have hhand : s'.hand t = pc.carries := by
    rw [hand_of_ne, hqueue, LockFree.Queue.pc_goto_self]
    rw [huse, Function.update_self]
    exact hne
  refine places_step (t := t) new (fun u hut ↦ ?_) (fun u hut ↦ ?_) ?_
  · rw [huse, Function.update_of_ne hut]
  · rw [hqueue, LockFree.Queue.pc_goto_of_ne queue hut, hold]
  · rw [hhand, hand_of_idle hu, hqueue]
    exact hrest.trans (by simp)

/-- A function returns, with a block or without one. -/
theorem places_ret (new : Multiset Block) (hu : s.use t ≠ .idle) (hqueue : s'.queue = s.queue)
    (huse : s'.use = Function.update s.use t .idle) (hgone : s'.gone = s.gone)
    (hlive : (s'.live : Multiset Block) = s.live + (s.queue.pc t).carries.toList + new) :
    s'.places = s.places + new := by
  have hhand : s'.hand t = none := by
    rw [hand_of_idle]
    rw [huse, Function.update_self]
  refine places_step (t := t) new (fun u hut ↦ ?_) (fun u _ ↦ ?_) ?_
  · rw [huse, Function.update_of_ne hut]
  · rw [hqueue]
  · rw [hhand, hand_of_ne hu, hqueue, hgone, hlive]
    simp only [Option.toList_none, Multiset.coe_nil, add_zero]
    abel

end Places

end Store

/-- What is deleted is an object. -/
def StoreAct.Owns {T : Type} (s : Store T) : StoreAct T → Prop
  | .delete _ b => b ∈ s.live
  | _ => True

instance {T : Type} (s : Store T) (a : StoreAct T) : Decidable (a.Owns s) :=
  match a with
  | .delete _ b => inferInstanceAs (Decidable (b ∈ s.live))
  | .init _ | .new _ | .deinit _ | .go _ | .ret _ => .isTrue trivial

namespace Store

variable {T : Type} [DecidableEq T] [Fintype T] {s s' : Store T} {t : T} {b : Block}
  {a : StoreAct T}

omit [DecidableEq T] in
/-- New memory is in one place. -/
theorem kept_of_grown {form : Form} (h : s.Kept) (hforms : s'.forms = s.forms ++ [form])
    (hplaces : s'.places = s.places + {s.forms.length}) : s'.Kept := by
  rw [Kept] at h ⊢
  rw [hplaces, h, hforms, List.length_append, List.length_singleton, Multiset.range_succ,
    add_comm, Multiset.singleton_add]

omit [DecidableEq T] in
private theorem kept_of_same (h : s.Kept) (hforms : s'.forms = s.forms)
    (hplaces : s'.places = s.places + 0) : s'.Kept := by
  rw [Kept] at h ⊢
  rw [hplaces, hforms, h, add_zero]

/-- What is deleted goes to the queue, and is an object no longer, if it was one. -/
theorem places_delete (new : Multiset Block) (hm : Moves s (.delete t b) s')
    (hlive : ((s.live.erase b : List Block) : Multiset Block) + {b} = s.live + new) :
    s'.places = s.places + new ∧ s'.forms = s.forms := by
  cases hm with
  | @delete _ _ r hu hphase hinit hb hp =>
    refine ⟨places_call (s.queue.alloc b) new hu Use.noConfusion rfl rfl rfl ?_, rfl⟩
    calc ((s.live.erase b : List Block) : Multiset Block) + s.gone + s.queue.contents + {b}
        = (s.live.erase b : List Block) + {b} + s.gone + s.queue.contents := by abel
      _ = s.live + s.gone + s.queue.contents + new := by
        rw [hlive]
        abel

/-- A step keeps each block in one place if it does not delete what is no object. -/
theorem kept_step (ho : s.Orderly) (h : s.Kept) (hm : Moves s a s') (hown : a.Owns s) :
    s'.Kept := by
  cases hm with
  | @init t r hu hphase hp =>
    refine kept_of_grown h rfl ?_
    exact places_call (s.queue.alloc s.forms.length) {s.forms.length} hu Use.noConfusion rfl rfl
      rfl rfl
  | @new t r hu hphase hinit hp =>
    refine kept_of_same h rfl ?_
    exact places_call s.queue 0 hu Use.noConfusion rfl rfl rfl rfl
  | @delete t b r hu hphase hinit hb hp =>
    have hlive : ((s.live.erase b : List Block) : Multiset Block) + {b} = s.live + 0 := by
      rw [← Multiset.coe_erase, add_comm, Multiset.singleton_add, Multiset.cons_erase, add_zero]
      exact hown
    obtain ⟨hplaces, hforms⟩ := places_delete 0 (.delete hu hphase hinit hb hp) hlive
    exact kept_of_same h hforms hplaces
  | @deinit t r hphase hidle hp =>
    refine kept_of_same h rfl ?_
    exact places_call s.queue 0 (hidle t) Use.noConfusion rfl rfl rfl rfl
  | @go t queue hgo =>
    refine kept_of_same h rfl ?_
    have hu := ho.use_of_go hgo
    have hsame := LockFree.Queue.contents_go ho.sound hgo
    have hhand : ({ s with queue } : Store T).hand t = (queue.pc t).carries := hand_of_ne hu
    refine places_step (t := t) 0 (fun _ _ ↦ rfl) (fun u hut ↦ ?_) ?_
    · exact LockFree.Queue.pc_step_of_ne (a := .go t) (Ne.symm hut) hgo
    · rw [hhand, hand_of_ne hu, add_zero, add_assoc, hsame, ← add_assoc]
  | @put t r hu hp =>
    refine kept_of_same h rfl ?_
    have hnone : (s.queue.pc t).carries = none := by
      have hput := (ho.fits t).putting hu
      rw [hp] at hput ⊢
      exact carries_of_put hput
    have hne : s.use t ≠ .idle := by
      intro hidle
      rcases hu with hu | hu <;> cases hidle.symm.trans hu
    refine places_ret 0 hne rfl rfl rfl ?_
    rw [hnone]
    simp [goto]
  | @got t b hu hp =>
    refine kept_of_same h rfl ?_
    have hne : s.use t ≠ .idle := by
      rw [hu]
      exact Use.noConfusion
    refine places_ret 0 hne rfl rfl rfl ?_
    rw [hp]
    change ((b :: s.live : List Block) : Multiset Block) = s.live + {b} + 0
    rw [add_zero, add_comm]
    rfl
  | @grown t r hu hp hnot =>
    refine kept_of_grown h rfl ?_
    have hne : s.use t ≠ .idle := by
      rw [hu]
      exact Use.noConfusion
    refine places_ret {s.forms.length} hne rfl rfl rfl ?_
    rw [hnot]
    change ((s.forms.length :: s.live : List Block) : Multiset Block) = s.live + 0 + _
    rw [add_zero, add_comm]
    rfl
  | @back t b hu hp =>
    refine kept_of_same h rfl ?_
    have hne : s.use t ≠ .idle := by
      rw [hu]
      exact Use.noConfusion
    refine places_step (t := t) 0 (fun _ _ ↦ rfl) (fun u hut ↦ ?_) ?_
    · exact LockFree.Queue.pc_goto_of_ne s.queue hut _
    · have hhand : ({ s with queue := s.queue.goto t (.deqHead false), gone := s.gone ++ [b] } :
          Store T).hand t = ((s.queue.goto t (.deqHead false)).pc t).carries := hand_of_ne hne
      rw [hhand, LockFree.Queue.pc_goto_self, hand_of_ne hne, hp]
      change (s.live : Multiset Block) + (s.gone ++ [b] : List Block) + s.queue.contents + 0 =
        s.live + s.gone + s.queue.contents + {b} + 0
      rw [← Multiset.coe_add, Multiset.coe_singleton]
      abel
  | @drained t r hu hp hnot =>
    refine kept_of_same h rfl ?_
    have hne : s.use t ≠ .idle := by
      rw [hu]
      exact Use.noConfusion
    refine places_ret 0 hne rfl rfl rfl ?_
    rw [hnot]
    simp [goto]

/-- What is deleted and is no object is in two places then. -/
private theorem not_kept_delete (h : s.Kept) (hm : Moves s (.delete t b) s') (hnot : b ∉ s.live) :
    ¬ s'.Kept := by
  intro h'
  obtain ⟨hplaces, hforms⟩ := places_delete {b} hm (by rw [List.erase_of_not_mem hnot])
  rw [Kept] at h h'
  have hcard := congrArg Multiset.card (hplaces.symm.trans h')
  rw [h, hforms] at hcard
  simp at hcard

/-- Every step keeps each block in one place if and only if it owns what it deletes. -/
private theorem kept_step_iff (ho : s.Orderly) (h : s.Kept) (hm : Moves s a s') :
    s'.Kept ↔ a.Owns s := by
  constructor
  · intro h'
    cases a with
    | delete t b =>
      by_contra hnot
      exact not_kept_delete h hm hnot h'
    | init | new | deinit | go | ret => trivial
  · exact kept_step ho h hm

/-! ### How much memory there is -/

section Frugal

/-- A call of `operator new` has found nothing in the queue, and may have to get memory. -/
def stranded (s : Store T) (t : T) : Bool := (s.use t).isNew && (s.queue.pc t).gaveUp

/-- How many there are. -/
def doomed (s : Store T) : Nat := census id s.stranded

/-- The objects, and the calls of `operator new` and `delete`. -/
def demand (s : Store T) : Nat := s.live.length + census Use.serves s.use

/-- The memory, with what may be got by the calls under way, is no more than has been preallocated
or has been in demand. -/
def Covered (s u : Store T) : Prop := s.forms.length + s.doomed ≤ max (s.forms.count .array) u.demand

/-- One thread goes on. -/
theorem doomed_update (huse : ∀ u, u ≠ t → s'.use u = s.use u)
    (hpc : ∀ u, u ≠ t → s'.queue.pc u = s.queue.pc u) :
    s'.doomed + (s.stranded t).toNat = s.doomed + (s'.stranded t).toNat := by
  have heq : s'.stranded = Function.update s.stranded t (s'.stranded t) := by
    funext u
    by_cases hut : u = t
    · rw [hut, Function.update_self]
    · rw [Function.update_of_ne hut, stranded, stranded, huse u hut, hpc u hut]
  have hcensus := census_update id s.stranded t (s'.stranded t)
  rw [← heq] at hcensus
  exact hcensus

/-- A call begins. -/
theorem doomed_le_call {pc : Pc Block} (queue : Queue T Block) (hold : queue.pc = s.queue.pc)
    (hpc : pc.gaveUp = false) (hqueue : s'.queue = queue.goto t pc)
    (huse : ∀ u, u ≠ t → s'.use u = s.use u) : s'.doomed ≤ s.doomed := by
  have hsum : s'.doomed + (s.stranded t).toNat = s.doomed + (s'.stranded t).toNat := by
    refine doomed_update huse fun u hut ↦ ?_
    rw [hqueue, LockFree.Queue.pc_goto_of_ne queue hut, hold]
  have hnot : s'.stranded t = false := by
    rw [stranded, hqueue, LockFree.Queue.pc_goto_self, hpc, Bool.and_false]
  rw [hnot, Bool.toNat_false] at hsum
  omega

/-- A function returns. -/
theorem doomed_ret (hqueue : s'.queue = s.queue) (huse : s'.use = Function.update s.use t .idle) :
    s'.doomed + (s.stranded t).toNat = s.doomed := by
  have hsum : s'.doomed + (s.stranded t).toNat = s.doomed + (s'.stranded t).toNat := by
    refine doomed_update (fun u hut ↦ ?_) fun u _ ↦ ?_
    · rw [huse, Function.update_of_ne hut]
    · rw [hqueue]
  have hnot : s'.stranded t = false := by
    rw [stranded, huse, Function.update_self]
    rfl
  rwa [hnot, Bool.toNat_false, add_zero] at hsum

omit [DecidableEq T] in
/-- What was covered is, if there is no more memory and nobody else is left with nothing. -/
theorem covered_of_le (hforms : s'.forms = s.forms) (hle : s'.doomed ≤ s.doomed) (u : Store T)
    (h : s.Covered u) : s'.Covered u := by
  rw [Covered] at h ⊢
  rw [hforms]
  omega

omit [DecidableEq T] in
/-- Before there are objects, all memory is preallocated. -/
theorem covered_of_filling (ho : s.Orderly) (hphase : s.phase = .filling) (u : Store T) :
    s.Covered u := by
  have hforms : s.forms.count .array = s.forms.length := by
    rw [List.count_eq_length]
    intro form hmem
    cases form with
    | array => rfl
    | plain => exact absurd hmem (ho.filling hphase)
  have hnone : s.doomed = 0 := by
    apply census_eq_zero
    intro t
    have hallowed := (ho.fits t).allowed
    rw [hphase] at hallowed
    cases hu : s.use t <;> rw [hu] at hallowed <;> simp_all [stranded, Use.isNew, Phase.allows]
  rw [Covered, hforms, hnone]
  exact Nat.le_max_left _ _

omit [DecidableEq T] in
/-- All that there is, is in use when a call has found the queue empty. -/
private theorem covered_self (ho : s.Orderly) (h : s.Kept) (hphase : s.phase = .inUse)
    (hempty : s.queue.contents = []) : s.Covered s := by
  have hgone : s.gone = [] := ho.gone (by rw [hphase]; exact Phase.noConfusion)
  have hcard := congrArg Multiset.card h
  rw [places, hgone, hempty, Multiset.card_range, Multiset.card_add, Multiset.card_sum] at hcard
  simp only [Multiset.coe_nil, add_zero, Multiset.coe_card] at hcard
  have hpoint (t : T) : (s.hand t).toList.length + (s.stranded t).toNat ≤
      (s.use t).serves.toNat := by
    rw [stranded]
    have hone : (s.hand t).toList.length ≤ 1 := by cases s.hand t <;> simp
    have hallowed := (ho.fits t).allowed
    rw [hphase] at hallowed
    cases hu : s.use t with
    | idle => simp [hand_of_idle hu, Use.isNew]
    | new =>
      cases hup : (s.queue.pc t).gaveUp with
      | false => exact hone
      | true =>
        rw [hand, hu, carries_of_gaveUp hup]
        exact Nat.le_refl 1
    | delete => exact hone
    | init | deinit =>
      rw [hu] at hallowed
      cases hallowed
  have hsum := Finset.sum_le_sum fun t (_ : t ∈ Finset.univ) ↦ hpoint t
  rw [Finset.sum_add_distrib] at hsum
  have htotal : s.forms.length + s.doomed ≤ s.demand := by
    simp only [doomed, demand, census, id]
    omega
  exact htotal.trans (Nat.le_max_right _ _)

private theorem covered_step (ho : s.Orderly) (h : s.Kept) (hm : Moves s a s') (hown : a.Owns s) :
    (∀ u, s.Covered u → s'.Covered u) ∨ s'.Covered s' := by
  have ho' := ho.step hm
  have h' := kept_step ho h hm hown
  cases hm with
  | @init t r hu hphase hp => exact .inr (covered_of_filling ho' hphase _)
  | @new t r hu hphase hinit hp =>
    exact .inl (covered_of_le rfl (doomed_le_call s.queue rfl rfl rfl fun u hut ↦
      Function.update_of_ne hut _ _))
  | @delete t b r hu hphase hinit hb hp =>
    exact .inl (covered_of_le rfl (doomed_le_call (s.queue.alloc b) rfl rfl rfl fun u hut ↦
      Function.update_of_ne hut _ _))
  | @deinit t r hphase hidle hp =>
    exact .inl (covered_of_le rfl (doomed_le_call s.queue rfl rfl rfl fun u hut ↦
      Function.update_of_ne hut _ _))
  | @back t b hu hp =>
    exact .inl (covered_of_le rfl (doomed_le_call s.queue rfl rfl rfl fun _ _ ↦ rfl))
  | @put t r hu hp =>
    have hret : (s.goto t .idle).doomed + (s.stranded t).toNat = s.doomed := doomed_ret rfl rfl
    exact .inl (covered_of_le rfl (Nat.le_of_add_right_le hret.le))
  | @drained t r hu hp hnot =>
    have hret : (s.goto t .idle).doomed + (s.stranded t).toNat = s.doomed := doomed_ret rfl rfl
    exact .inl (covered_of_le rfl (Nat.le_of_add_right_le hret.le))
  | @got t b hu hp =>
    have hret : ({ s with live := b :: s.live }.goto t .idle).doomed + (s.stranded t).toNat =
      s.doomed := doomed_ret rfl rfl
    exact .inl (covered_of_le rfl (Nat.le_of_add_right_le hret.le))
  | @grown t r hu hp hnot =>
    have hret : ({ s.grow .plain with live := s.forms.length :: s.live }.goto t .idle).doomed +
      (s.stranded t).toNat = s.doomed := doomed_ret rfl rfl
    have htake := (ho.fits t).taking (.inl hu)
    have hstranded : s.stranded t = true := by
      rw [hp] at htake hnot
      rw [stranded, hu, hp]
      match r with
      | some .nothing => rfl
    rw [hstranded, Bool.toNat_true] at hret
    refine .inl fun u hcov ↦ ?_
    have hcount : (s.forms ++ [Form.plain]).count .array = s.forms.count .array := by simp
    rw [Covered] at hcov ⊢
    change (s.forms ++ [Form.plain]).length + _ ≤ max ((s.forms ++ [Form.plain]).count .array) _
    rw [hcount, List.length_append, List.length_singleton]
    omega
  | @go t queue hgo =>
    have hsum : ({ s with queue } : Store T).doomed + (s.stranded t).toNat =
        s.doomed + (({ s with queue } : Store T).stranded t).toNat :=
      doomed_update (fun _ _ ↦ rfl) fun u hut ↦
        LockFree.Queue.pc_step_of_ne (a := .go t) (Ne.symm hut) hgo
    cases hstranded : ({ s with queue } : Store T).stranded t with
    | false =>
      rw [hstranded, Bool.toNat_false, add_zero] at hsum
      exact .inl (covered_of_le rfl (Nat.le_of_add_right_le hsum.le))
    | true =>
      obtain ⟨hnew, hup⟩ := Bool.and_eq_true_iff.mp hstranded
      obtain ⟨hnone, hbefore⟩ := LockFree.Queue.gaveUp_go ho.sound hgo hup
      rcases hbefore with hbefore | hempty
      · have hsame : s.stranded t = true := Bool.and_eq_true_iff.mpr ⟨hnew, hbefore⟩
        rw [hstranded, hsame] at hsum
        exact .inl (covered_of_le rfl (Nat.le_of_add_le_add_right hsum.le))
      · have hphase : s.phase = .inUse := by
          have hallowed := (ho.fits t).allowed
          cases hu : s.use t <;> cases hphase : s.phase <;> rw [hu, hphase] at hallowed <;>
            simp_all [Use.isNew, Phase.allows]
        have hcontents := LockFree.Queue.contents_go ho.sound hgo
        rw [hempty, hnone, carries_of_gaveUp hup] at hcontents
        exact .inr (covered_self ho' h' hphase (by simpa using hcontents))

end Frugal

end Store

/-! ### Runs -/

section Runs

variable (T : Type) [Fintype T] [DecidableEq T] (acts : List (StoreAct T))

/-- For any number of threads and any interleaving: in all states of a run every block of memory is
in one place, an object's or in the queue or on its way, if and only if the run deletes nothing but
objects. -/
theorem kept_iff_owns :
    (preallocated T).AllStates Store.Kept .new acts ↔
      (preallocated T).AllSteps (fun s a ↦ a.Owns s) .new acts := by
  apply Machine.allStates_iff_allSteps (J := Store.Orderly)
  · intro s a s' hk ho hstep
    exact Store.kept_step_iff ho hk (Store.step_moves hstep)
  · intro s a s' _ ho _ hstep
    exact ho.step (Store.step_moves hstep)
  · exact Store.kept_new
  · exact Store.orderly_new

variable {T acts} {s : Store T}

private theorem orderly_of_run (hrun : (preallocated T).run .new acts = some s) : s.Orderly :=
  Machine.invariant _ Store.orderly_new
    (fun _ _ _ hs hstep ↦ hs.step (Store.step_moves hstep)) ⟨acts, hrun⟩

private theorem kept_of_owns (howns : (preallocated T).AllSteps (fun s a ↦ a.Owns s) .new acts)
    (hrun : (preallocated T).run .new acts = some s) : s.Kept := by
  have hboth := Machine.AllSteps.allStates (preallocated T) (P := fun s ↦ s.Orderly ∧ s.Kept)
    (fun _ _ _ hs hown hstep ↦ ⟨hs.1.step (Store.step_moves hstep),
      Store.kept_step hs.1 hs.2 (Store.step_moves hstep) hown⟩)
    ⟨Store.orderly_new, Store.kept_new⟩ howns
  exact (Machine.AllStates.last _ hboth hrun).2

/-- As long as nothing but objects is deleted: there is memory for all objects, and beyond what has
been preallocated there is no more than there have been objects and calls at some moment. -/
theorem frugal_of_owns (T : Type) [Fintype T] [DecidableEq T] (acts : List (StoreAct T))
    (s : Store T) (howns : (preallocated T).AllSteps (fun s a ↦ a.Owns s) .new acts)
    (hrun : (preallocated T).run .new acts = some s) :
    s.live.length ≤ s.forms.length ∧ ∃ p u, p <+: acts ∧ (preallocated T).run .new p = some u ∧
      s.forms.length ≤ max (s.forms.count .array) u.demand := by
  constructor
  · have hcard := congrArg Multiset.card (kept_of_owns howns hrun)
    simp only [Store.places, Multiset.card_add, Multiset.coe_card, Multiset.card_range] at hcard
    omega
  · obtain ⟨p, u, hp, hpu, hcov⟩ := Machine.seen_of_run (preallocated T)
      (J := fun s ↦ s.Orderly ∧ s.Kept) (Q := Store.Covered)
      (fun _ _ _ hs hown hstep ↦ ⟨⟨hs.1.step (Store.step_moves hstep),
        Store.kept_step hs.1 hs.2 (Store.step_moves hstep) hown⟩,
        Store.covered_step hs.1 hs.2 (Store.step_moves hstep) hown⟩)
      ⟨Store.orderly_new, Store.kept_new⟩ (Store.covered_of_filling Store.orderly_new rfl _)
      howns hrun
    exact ⟨p, u, hp, hpu, (Nat.le_add_right _ _).trans hcov⟩

/-- Nothing has been preallocated, and an object is made. -/
theorem frugal_of_owns_first : ∃ s, (preallocated Unit).run .new
    (.new () :: List.replicate 5 (.go ()) ++ [.ret ()]) = some s ∧ s.live = [0] ∧
      s.live.length ≤ s.forms.length := by
  obtain ⟨s, hs, hlive⟩ : ∃ s, (preallocated Unit).run .new
      (.new () :: List.replicate 5 (.go ()) ++ [.ret ()]) = some s ∧ s.live = [0] := ⟨_, rfl, rfl⟩
  exact ⟨s, hs, hlive, (frugal_of_owns Unit _ s (by decide) hs).1⟩

/-- And when `prealloc_deinit` has returned, all memory has been given back, once, but what objects
are still in. It has been given back as arrays, which is wrong for what `operator new` has got. -/
theorem returned_of_owns (T : Type) [Fintype T] [DecidableEq T] (acts : List (StoreAct T))
    (s : Store T) (howns : (preallocated T).AllSteps (fun s a ↦ a.Owns s) .new acts)
    (hrun : (preallocated T).run .new acts = some s) (hclosed : s.phase = .closed)
    (hidle : ∀ t, s.use t = .idle) :
    (s.live ++ s.gone).Perm (List.range s.forms.length) ∧
      (s.live = [] → ((∃ b ∈ s.gone, s.forms[b]? = some .plain) ↔ .plain ∈ s.forms)) := by
  have ho := orderly_of_run hrun
  have hkept := kept_of_owns howns hrun
  have hempty : s.queue.contents = [] := ho.empty hclosed fun t ht ↦ absurd (hidle t) ht
  have hnone : ∑ t, ((s.hand t).toList : Multiset Block) = 0 := by
    apply Finset.sum_eq_zero
    intro t _
    rw [Store.hand_of_idle (hidle t)]
    rfl
  rw [Store.Kept, Store.places, hempty, hnone, Multiset.coe_nil, add_zero, add_zero,
    Multiset.coe_add] at hkept
  have hperm : (s.live ++ s.gone).Perm (List.range s.forms.length) := Multiset.coe_eq_coe.mp hkept
  refine ⟨hperm, fun hlive ↦ ?_⟩
  rw [hlive, List.nil_append] at hperm
  constructor
  · rintro ⟨b, -, hb⟩
    exact List.mem_of_getElem? hb
  · intro hplain
    obtain ⟨b, hb⟩ := List.mem_iff_getElem?.mp hplain
    refine ⟨b, ?_, hb⟩
    rw [hperm.mem_iff, List.mem_range]
    exact (List.getElem?_eq_some_iff.mp hb).1

/-- An object is made and deleted, and the queue is emptied. -/
def overflow : List (StoreAct Unit) :=
  .new () :: List.replicate 5 (.go ()) ++ .ret () :: .delete () 0 :: List.replicate 6 (.go ()) ++
    .ret () :: .deinit () :: List.replicate 9 (.go ()) ++ .ret () :: List.replicate 5 (.go ()) ++
      [.ret ()]

theorem returned_of_owns_overflow : ∃ s, (preallocated Unit).run .new overflow = some s ∧
    ∃ b ∈ s.gone, s.forms[b]? = some .plain := by
  obtain ⟨s, hs, hclosed, hidle, hlive, hforms⟩ : ∃ s,
      (preallocated Unit).run .new overflow = some s ∧ s.phase = .closed ∧ s.use () = .idle ∧
        s.live = [] ∧ .plain ∈ s.forms := ⟨_, rfl, rfl, rfl, rfl, by decide⟩
  have hreturned := returned_of_owns Unit overflow s (by decide) hs hclosed fun _ ↦ hidle
  exact ⟨s, hs, (hreturned.2 hlive).mpr hforms⟩

end Runs

end Filth.Prealloc
