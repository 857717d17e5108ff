import Mathlib
import Filth.Queue.Atomic
import Filth.Queue.DoubleLocked
import Filth.Queue.Recycling

/-!
# Shared queues implement their interface

Calls of `LockFreeQueue` and of `DoubleLockedQueue` and what they return, in the order in which this
can be seen, are those of a queue whose calls take effect at one moment. For the former this is the
swap that links a node, the swap of `head`, or, when `nowait_deq` returns with nothing, the moment
at which it has read that there is no next node. That it will return is not known at that moment,
and so this is traced backwards.
-/

namespace Filth.LockFree

open Base

variable {T V : Type}

/-- How far a call has come, if it has not read that there is no next node. -/
def Pc.call : Pc V → QueueCall V
  | idle ret => .idle ret
  | enqTail v _ | enqNext v _ _ | enqTest v _ _ _ | enqLink v _ _ | enqHelp v _ _ _ =>
    .called (.enq v)
  | enqSwing _ _ | enqUp => .done .enqueued
  | deqHead wait | deqTail wait _ | deqAgain wait _ _ | deqNext wait _ _ _ | deqTest wait _ _ _
  | deqHelp wait _ _ | deqRead wait _ _ | deqSwing wait _ _ _ => .called (.deq wait)
  | deqDown _ _ v | deqFree _ _ v => .done (.got v)
  | waitDown | waitUp => .called (.deq true)

/-- How far a call may have come. Who has read that there is no next node may have got nothing. -/
def Pc.Stands : Pc V → QueueCall V → Prop
  | deqTest false _ _ none, c => c = .called (.deq false) ∨ c = .done .nothing
  | pc, c => c = pc.call

private theorem Pc.stands_call (pc : Pc V) : pc.Stands pc.call := by
  unfold Stands
  split
  · exact .inl rfl
  · rfl

private theorem Pc.Stands.eq_call {pc : Pc V} {c : QueueCall V} (h : pc.Stands c)
    (hc : c ≠ .done .nothing) : c = pc.call := by
  unfold Stands at h
  split at h
  · exact h.resolve_right hc
  · exact h

namespace Queue

/-- What can be seen of a step. -/
def see (_ : Queue T V) : QueueAct T V → Queue T V → List (QueueEvent T V)
  | .enq t v, _ => [.call t (.enq v)]
  | .deq t wait, _ => [.call t (.deq wait)]
  | .go t, s' =>
    match s'.pc t with
    | .idle (some r) => [.ret t r]
    | _ => []

/-- The queue has these values in it, and the calls may have come as far as that. -/
structure Stands (s : Queue T V) (q : ConcurrentQueue T V) : Prop where
  contents : q.contents = s.contents
  call : ∀ t, (s.pc t).Stands (q.call t)

/-- The queue for those who call it, if each call is where its thread is. -/
def view (s : Queue T V) : ConcurrentQueue T V :=
  { contents := s.contents, call := fun t ↦ (s.pc t).call }

theorem stands_view (s : Queue T V) : s.Stands s.view := ⟨rfl, fun _ ↦ Pc.stands_call _⟩

variable {s s' : Queue T V} {q' : ConcurrentQueue T V} {t : T} {c : QueueCall V}

/-- Only one thread has gone on, and nothing has changed by that. -/
theorem Stands.same (h : s'.Stands q') (hother : ∀ u, u ≠ t → s'.pc u = s.pc u)
    (hc : (s.pc t).Stands (q'.call t)) (hl : s'.contents = s.contents) : s.Stands q' := by
  refine ⟨h.contents.trans hl, fun u ↦ ?_⟩
  by_cases hut : u = t
  · exact hut ▸ hc
  · exact hother u hut ▸ h.call u

variable [DecidableEq T]

/-- Only one thread has gone on. -/
theorem Stands.before (h : s'.Stands q') (hother : ∀ u, u ≠ t → s'.pc u = s.pc u)
    (hc : (s.pc t).Stands c) : s.Stands (q'.before t s.contents c) := by
  refine ⟨rfl, fun u ↦ ?_⟩
  by_cases hut : u = t
  · subst hut
    rw [ConcurrentQueue.call_before]
    exact hc
  · rw [ConcurrentQueue.call_before_of_ne hut, ← hother u hut]
    exact h.call u

/-- A step of a thread in a call is traced back. -/
theorem Stands.go (h : s'.Stands q') (hs : s.Sound) (hgo : s.go t = some s') :
    ∃ q, s.Stands q ∧
      (concurrentQueue T V).Shows ConcurrentQueue.see q q' (s.see (.go t) s') := by
  have hother (u : T) (hut : u ≠ t) : s'.pc u = s.pc u := by
    obtain ⟨s₁, pc, rfl, -, hpc⟩ := go_eq hgo
    rw [pc_goto_of_ne s₁ hut, hpc]
  have hcall := h.call t
  have hl := h.contents
  cases go_moves hgo with
  | @link v n last d hp hd hlast =>
    rw [pc_goto_self] at hcall
    rw [see, pc_goto_self]
    have hadded := hl.trans (hs.contents_link last n v)
    exact ⟨_, h.before hother (by rw [hp]; rfl), ConcurrentQueue.shows_enq hcall hadded⟩
  | @swing wait first next v hp hhead =>
    rw [pc_goto_self] at hcall
    rw [see, pc_goto_self]
    have htaken : v :: q'.contents = s.contents := by
      rw [hl, hs.contents_swing hp hhead]
      rfl
    exact ⟨_, h.before hother (by rw [hp]; rfl), ConcurrentQueue.shows_got _ hcall htaken⟩
  | enqUp hp | deqFree hp =>
    rw [pc_goto_self] at hcall
    rw [see, pc_goto_self]
    exact ⟨_, h.before hother (by rw [hp]; rfl), ConcurrentQueue.shows_ret hcall hl⟩
  | nothing hp =>
    rw [pc_goto_self] at hcall
    rw [see, pc_goto_self]
    exact ⟨_, h.before hother (by rw [hp]; exact .inr rfl), ConcurrentQueue.shows_ret hcall hl⟩
  | @deqNext wait first last again d hp hd =>
    rw [pc_goto_self] at hcall
    rw [see, pc_goto_self]
    by_cases hnothing : q'.call t = .done .nothing
    · have hempty : s.contents = [] := by
        cases hnext : d.next with
        | none => exact hs.empty_of_deqNext hp hd hnext
        | some x =>
          rw [hnext, hnothing] at hcall
          cases wait <;> cases hcall
      refine ⟨_, h.before hother (c := .called (.deq false)) ?_, ?_⟩
      · rw [hp]
        cases wait
        · exact rfl
        · rw [hnothing] at hcall
          cases hcall
      · rw [hempty]
        exact ConcurrentQueue.shows_nothing hnothing (hl.trans hempty)
    · refine ⟨q', h.same hother ?_ rfl, .refl _ _ _⟩
      rw [hp]
      exact hcall.eq_call hnothing
  | enqSwing hp | enqHelp hp | deqHelp hp =>
    rw [pc_goto_self] at hcall
    rw [see, pc_goto_self]
    exact ⟨q', h.same hother (by rw [hp]; exact hcall) (contents_casTail s _ _), .refl _ _ _⟩
  | sleep hp | deqLags hp | deqFound hp | deqMoved hp =>
    rw [pc_goto_self] at hcall
    rw [see, pc_goto_self]
    refine ⟨q', h.same hother ?_ rfl, .refl _ _ _⟩
    rw [hp, show q'.call t = _ from hcall]
    exact Pc.stands_call _
  | enqTail hp | enqNext hp | enqLast hp | enqLags hp | enqMoved hp | linkLost hp | deqHead hp
  | deqTail hp | deqAgain hp | deqRead hp | swingLost hp | deqDown hp | waitDown hp | waitUp hp =>
    rw [pc_goto_self] at hcall
    rw [see, pc_goto_self]
    exact ⟨q', h.same hother (by rw [hp]; exact hcall) rfl, .refl _ _ _⟩

/-- And so is any step. -/
theorem Stands.step (h : s'.Stands q') (hs : s.Sound) {a : QueueAct T V}
    (hstep : s.step a = some s') :
    ∃ q, s.Stands q ∧ (concurrentQueue T V).Shows ConcurrentQueue.see q q' (s.see a s') := by
  have hother (u : T) (hu : u ≠ a.thread) : s'.pc u = s.pc u := pc_step_of_ne hu.symm hstep
  cases steps_of_step hstep with
  | @enq t v r hp =>
    have hcall := h.call t
    rw [pc_goto_self] at hcall
    have hidle : (s.pc t).Stands (.idle r) := by rw [hp]; exact rfl
    exact ⟨_, h.before hother hidle, ConcurrentQueue.shows_call _ hcall h.contents⟩
  | @deq t wait r hp =>
    have hcall := h.call t
    rw [pc_goto_self] at hcall
    have hidle : (s.pc t).Stands (.idle r) := by rw [hp]; exact rfl
    exact ⟨_, h.before hother hidle, ConcurrentQueue.shows_call _ hcall h.contents⟩
  | go hgo => exact h.go hs hgo

end Queue

/-- The lock-free queue implements the interface. -/
theorem implements (T : Type) [DecidableEq T] {V : Type} (junk : V) :
    Machine.Implements (lockFreeQueue T junk) (concurrentQueue T V) Queue.see ConcurrentQueue.see
      Queue.Stands where
  init q h := by
    refine ConcurrentQueue.ext h.contents (funext fun t ↦ ?_)
    exact h.call t
  step _ _ _ _ hs hstep h := h.step (sound_of_reachable hs) hstep

/-- For any number of threads and any interleaving: the calls of a run and what they return, in
their order, are those of a run of the queue whose calls take effect at one moment, and at the end
there is the same in it. -/
theorem linearizable (T : Type) [DecidableEq T] {V : Type} (junk : V) (acts : List (QueueAct T V))
    (s : Queue T V) (hrun : (lockFreeQueue T junk).run (.new junk) acts = some s) :
    ∃ bs q, (concurrentQueue T V).run .new bs = some q ∧
      (concurrentQueue T V).history ConcurrentQueue.see .new bs =
        (lockFreeQueue T junk).history Queue.see (.new junk) acts ∧
      q.contents = s.contents ∧ ∀ t, q.call t = (s.pc t).call := by
  obtain ⟨bs, hbs, hsame⟩ := (implements T junk).shows hrun s.stands_view
  exact ⟨bs, s.view, hbs, hsame, rfl, fun _ ↦ rfl⟩

/-- Thread `t` finds that there is no next node, and before it returns, thread `u` enqueues 5. -/
def late (t u : T) : List (QueueAct T Nat) :=
  .deq t false :: List.replicate 4 (.go t) ++ .enq u 5 :: List.replicate 6 (.go u) ++ [.go t]

theorem linearizable_late : ∃ bs q, (concurrentQueue (Fin 2) Nat).run .new bs = some q ∧
    (concurrentQueue (Fin 2) Nat).history ConcurrentQueue.see .new bs =
      [.call 0 (.deq false), .call 1 (.enq 5), .ret 1 .enqueued, .ret 0 .nothing] ∧
    q.contents = [5] := by
  obtain ⟨s, hs, hl⟩ : ∃ s, (lockFreeQueue (Fin 2) 0).run (.new 0) (late 0 1) = some s ∧
      s.contents = [5] := ⟨_, rfl, rfl⟩
  obtain ⟨bs, q, hbs, hsame, hq, -⟩ := linearizable (Fin 2) 0 (late 0 1) s hs
  exact ⟨bs, q, hbs, hsame, hq.trans hl⟩

/-! ### On a heap that reuses addresses -/

/-- What has been returned is what can be seen. -/
private theorem Queue.see_congr {r' : Queue T V} {a : QueueAct T V} {r s s' : Queue T V}
    (h : ∀ t, (r'.pc t).returned = (s'.pc t).returned) : r.see a r' = s.see a s' := by
  cases a with
  | enq | deq => rfl
  | go t =>
    rw [see, see]
    have ht := h t
    cases hr : r'.pc t with
    | idle ret =>
      rw [hr] at ht
      rw [Pc.returned_eq_some ht.symm]
    | _ =>
      rw [hr] at ht
      cases hs : s'.pc t with
      | idle ret =>
        rw [hs] at ht
        cases ht
      | _ => rfl

/-- As long as the allocator does not return the address of a deleted node that a thread in a call
still has, the same is true on a heap that reuses addresses. -/
theorem linearizable_of_spares (T : Type) [DecidableEq T] {V : Type} (junk : V)
    (acts : List (RecycleAct T V)) (r : Queue T V)
    (hspares : (recyclingQueue T junk).AllSteps (fun s a ↦ a.Spares s) (.new junk) acts)
    (hrun : (recyclingQueue T junk).run (.new junk) acts = some r) :
    ∃ bs q, (concurrentQueue T V).run .new bs = some q ∧
      (concurrentQueue T V).history ConcurrentQueue.see .new bs =
        (recyclingQueue T junk).history (fun r a r' ↦ r.see a.plain r') (.new junk) acts ∧
      q.contents = r.contents := by
  have hfollows := follows_of_spares T junk
  obtain ⟨s, hs, -, -, names, hm⟩ := hfollows.run hfollows.init hspares hrun
  have hsame : (lockFreeQueue T junk).history Queue.see (.new junk) (acts.map RecycleAct.plain) =
      (recyclingQueue T junk).history (fun r a r' ↦ r.see a.plain r') (.new junk) acts := by
    refine hfollows.history ?_ hfollows.init hspares hrun
    rintro r s a r' s' - ⟨-, -, names, hm⟩ -
    exact Queue.see_congr fun t ↦ (hm.pc t).returned
  obtain ⟨bs, hbs, hseen⟩ := (implements T junk).shows hs s.stands_view
  refine ⟨bs, s.view, hbs, hseen.trans hsame, ?_⟩
  have hlen : r.taken.length = s.taken.length := by
    simpa using congrArg List.length hm.same.taken
  rw [Queue.view, Queue.contents, Queue.contents, List.map_drop, List.map_drop, hm.same.linked,
    hlen]

theorem linearizable_of_spares_again : ∃ bs q,
    (concurrentQueue Unit Nat).run .new bs = some q ∧
      (concurrentQueue Unit Nat).history ConcurrentQueue.see .new bs =
        [.call () (.enq 5), .ret () .enqueued, .call () (.deq false), .ret () (.got 5),
          .call () (.enq 6), .ret () .enqueued, .call () (.deq false), .ret () (.got 6)] ∧
      q.contents = [] := by
  obtain ⟨r, hr, hl⟩ : ∃ r, (recyclingQueue Unit 0).run (.new 0) again = some r ∧
      r.contents = [] := ⟨_, rfl, rfl⟩
  obtain ⟨bs, q, hbs, hsame, hq⟩ := linearizable_of_spares Unit 0 again r (by decide) hr
  exact ⟨bs, q, hbs, hsame, hq.trans hl⟩

end Filth.LockFree

namespace Filth.DoubleLocked

open Base
open LockFree (Ret)

variable {T V : Type}

/-- How far a call has come. -/
def Pc.call : Pc V → QueueCall V
  | idle ret => .idle ret
  | enqLock v | enqTest v | enqPush v _ => .called (.enq v)
  | enqSignal | enqUnlock => .done .enqueued
  | deq wait => .called (.deq wait)
  | asleep | woken => .called (.deq true)

private theorem Pc.call_of_isAsleep {pc : Pc V} (h : pc.isAsleep = true) :
    pc.call = .called (.deq true) := by
  cases pc with
  | asleep => rfl
  | _ => cases h

namespace Queue

/-- What can be seen of a step. -/
def see (_ : Queue T V) : QueueAct T V → Queue T V → List (QueueEvent T V)
  | .enq t v, _ => [.call t (.enq v)]
  | .deq t wait, _ => [.call t (.deq wait)]
  | .go t, s' =>
    match s'.pc t with
    | .idle (some r) => [.ret t r]
    | _ => []
  | .signal _ _, _ | .wake _, _ => []

/-- The queue for those who call it. -/
def view (s : Queue T V) : ConcurrentQueue T V :=
  { contents := s.q, call := fun t ↦ (s.pc t).call }

variable {s s' : Queue T V} {t : T} {c : QueueCall V}

/-- Threads have gone on, and their calls have not. -/
private theorem view_eq (hq : s'.q = s.q) (hcall : ∀ t, (s'.pc t).call = (s.pc t).call) :
    s'.view = s.view :=
  ConcurrentQueue.ext hq (funext hcall)

variable [DecidableEq T]

theorem call_goto (s : Queue T V) (t : T) (pc : Pc V) :
    (s.goto t pc).view.call t = pc.call := congrArg Pc.call (pc_goto_self s t pc)

/-- One thread has gone on, and its call has not. -/
theorem view_goto {pc : Pc V} (h : (s.pc t).call = pc.call) : (s.goto t pc).view = s.view := by
  refine view_eq rfl fun u ↦ ?_
  by_cases hut : u = t
  · subst hut
    rw [pc_goto_self, h]
  · rw [pc_goto_of_ne s hut]

/-- The view from before a step of one thread. -/
theorem before_goto (s₁ : Queue T V) (pc : Pc V) (hpc : s₁.pc = s.pc) (hc : (s.pc t).call = c) :
    (s₁.goto t pc).view.before t s.q c = s.view := by
  refine ConcurrentQueue.ext rfl (funext fun u ↦ ?_)
  by_cases hut : u = t
  · subst hut
    rw [ConcurrentQueue.call_before, ← hc]
    rfl
  · rw [ConcurrentQueue.call_before_of_ne hut]
    change ((s₁.goto t pc).pc u).call = _
    rw [pc_goto_of_ne s₁ hut, hpc]
    rfl

/-- A call begins. -/
theorem shows_call {pc : Pc V} {op : QueueOp V} {ret : Option (Ret V)} (hp : s.pc t = .idle ret)
    (hpc : pc.call = .called op) :
    (concurrentQueue T V).Shows ConcurrentQueue.see s.view (s.goto t pc).view [.call t op] := by
  have hc : (s.pc t).call = .idle ret := by rw [hp]; rfl
  have hshows := ConcurrentQueue.shows_call ret ((call_goto s t pc).trans hpc) rfl
  exact before_goto s pc rfl hc ▸ hshows

/-- A call returns. -/
theorem shows_ret {s₁ : Queue T V} {r : Ret V} (hc : (s.pc t).call = .done r)
    (hpc : s₁.pc = s.pc) (hq : s₁.q = s.q) :
    (concurrentQueue T V).Shows ConcurrentQueue.see s.view (s₁.goto t (.idle (some r))).view
      [.ret t r] := by
  have hshows := ConcurrentQueue.shows_ret (call_goto s₁ t (.idle (some r))) hq
  exact before_goto s₁ _ hpc hc ▸ hshows

/-- A value is added, and the call that does it has taken effect. -/
private theorem shows_push {pc : Pc V} {v : V} {dosignal : Bool} (hp : s.pc t = .enqPush v dosignal)
    (hpc : pc.call = .done .enqueued) :
    (concurrentQueue T V).Shows ConcurrentQueue.see s.view
      ({ s with q := s.q ++ [v] }.goto t pc).view [] := by
  have hc : (s.pc t).call = .called (.enq v) := by rw [hp]; rfl
  have hcall := (call_goto { s with q := s.q ++ [v] } t pc).trans hpc
  have hshows := ConcurrentQueue.shows_enq (l := s.q) (v := v) hcall rfl
  exact before_goto (s := s) { s with q := s.q ++ [v] } pc rfl hc ▸ hshows

/-- A value is taken, or there is none, and the call that finds that takes effect and returns. -/
theorem shows_found {s₁ : Queue T V} {op : QueueOp V} {r : Ret V}
    (hc : (s.pc t).call = .called op) (hpc : s₁.pc = s.pc)
    (heffect : ∀ q : ConcurrentQueue T V, q.call t = .done r → q.contents = s₁.q →
      (concurrentQueue T V).Shows ConcurrentQueue.see (q.before t s.q (.called op)) q []) :
    (concurrentQueue T V).Shows ConcurrentQueue.see s.view (s₁.goto t (.idle (some r))).view
      [.ret t r] := by
  have hret := ConcurrentQueue.shows_ret (l := s₁.q) (call_goto s₁ t (.idle (some r))) rfl
  have hdone := heffect ((s₁.goto t (.idle (some r))).view.before t s₁.q (.done r))
    (ConcurrentQueue.call_before _ t _ _) rfl
  rw [ConcurrentQueue.before_before, before_goto s₁ _ hpc hc] at hdone
  exact hdone.trans hret

/-- A step can be seen as one of a call that takes effect at one moment. -/
private theorem shows_step [Fintype T] {a : QueueAct T V} (hstep : s.step a = some s') :
    (concurrentQueue T V).Shows ConcurrentQueue.see s.view s'.view (s.see a s') := by
  have hquiet (h : s'.view = s.view) :
      (concurrentQueue T V).Shows ConcurrentQueue.see s.view s'.view [] := h ▸ .refl _ _ _
  cases step_moves hstep with
  | enq hp | deq hp => exact shows_call hp rfl
  | enqPush hp | enqMore hp =>
    rw [see, pc_goto_self]
    exact shows_push hp rfl
  | enqUnlock hp =>
    rw [see, pc_goto_self]
    exact shows_ret (by rw [hp]; rfl) rfl rfl
  | nothing hp hq =>
    rw [see, pc_goto_self]
    refine shows_found (by rw [hp]; rfl) rfl fun q hcall hl ↦ ?_
    rw [hq] at hl ⊢
    exact ConcurrentQueue.shows_nothing hcall hl
  | got hp hq =>
    rw [see, pc_goto_self]
    refine shows_found (by rw [hp]; rfl) rfl fun q hcall hl ↦ ?_
    exact ConcurrentQueue.shows_got _ hcall (by rw [hl, hq])
  | gotWoken hp hq =>
    rw [see, pc_goto_self]
    refine shows_found (by rw [hp]; rfl) rfl fun q hcall hl ↦ ?_
    exact ConcurrentQueue.shows_got true hcall (by rw [hl, hq])
  | @enqLock t v hp | @enqTest t v hp =>
    rw [see, pc_goto_self]
    exact hquiet (view_goto (by rw [hp]; rfl))
  | sleep hp =>
    rw [see, pc_goto_self]
    exact hquiet (view_goto (by rcases hp with hp | hp <;> rw [hp] <;> rfl))
  | signal hp => exact hquiet (view_goto (by rw [hp]; rfl))
  | @wakeUp t u hp hu =>
    have hut : t ≠ u := by
      rintro rfl
      rw [hp] at hu
      cases hu
    have hwoken : (s.goto u .woken).view = s.view := view_goto (Pc.call_of_isAsleep hu)
    have hdone : ((s.goto u .woken).pc t).call = .done .enqueued := by
      rw [pc_goto_of_ne s hut, hp]
      rfl
    exact hquiet ((view_goto hdone).trans hwoken)
  | wake hp => exact hquiet (view_goto (Pc.call_of_isAsleep hp))

end Queue

/-- The queue with two locks implements the interface. -/
theorem implements (T V : Type) [DecidableEq T] [Fintype T] :
    Machine.Implements (doubleLockedQueue T V) (concurrentQueue T V) Queue.see ConcurrentQueue.see
      (fun s q ↦ q = s.view) where
  init _ h := h
  step _ _ _ _ _ hstep h := ⟨_, rfl, h ▸ Queue.shows_step hstep⟩

/-- For any number of threads and any interleaving: the calls of a run and what they return, in
their order, are those of a run of the queue whose calls take effect at one moment, and at the end
there is the same in it. -/
theorem linearizable_locked (T V : Type) [DecidableEq T] [Fintype T] (acts : List (QueueAct T V))
    (s : Queue T V) (hrun : (doubleLockedQueue T V).run .new acts = some s) :
    ∃ bs q, (concurrentQueue T V).run .new bs = some q ∧
      (concurrentQueue T V).history ConcurrentQueue.see .new bs =
        (doubleLockedQueue T V).history Queue.see .new acts ∧
      q.contents = s.q ∧ ∀ t, q.call t = (s.pc t).call := by
  obtain ⟨bs, hbs, hsame⟩ := (implements T V).shows hrun rfl
  exact ⟨bs, s.view, hbs, hsame, rfl, fun _ ↦ rfl⟩

/-- Thread 0 waits, thread 1 enqueues 5 and wakes it up, and thread 0 takes 5 before thread 1
returns. -/
theorem linearizable_locked_handover : ∃ bs q,
    (concurrentQueue (Fin 2) Nat).run .new bs = some q ∧
      (concurrentQueue (Fin 2) Nat).history ConcurrentQueue.see .new bs =
        [.call 0 (.deq true), .call 1 (.enq 5), .ret 0 (.got 5), .ret 1 .enqueued] ∧
      q.contents = [] := by
  let acts : List (QueueAct (Fin 2) Nat) :=
    [.deq 0 true, .go 0, .enq 1 5, .go 1, .go 1, .go 1, .signal 1 (some 0), .go 0, .go 1]
  obtain ⟨s, hs, hq⟩ : ∃ s, (doubleLockedQueue (Fin 2) Nat).run .new acts = some s ∧
      s.q = [] := ⟨_, rfl, rfl⟩
  obtain ⟨bs, q, hbs, hsame, hl, -⟩ := linearizable_locked (Fin 2) Nat acts s hs
  exact ⟨bs, q, hbs, hsame, hl.trans hq⟩

end Filth.DoubleLocked
