import Filth.Base.Histories
import Filth.Queue.LockFree

/-!
# What a shared queue is for

`ConcurrentQueue`, `src/ConcurrentQueue.hpp:4–15`, for those who call it: values are added at one
end of a list and taken from the other, and each call takes effect at one moment between its
beginning and its return.
-/

namespace Filth

open Base
open LockFree (Ret)

/-- The functions of a queue; `wait` tells `wait_deq` from `nowait_deq`. -/
inductive QueueOp (V : Type) where
  | enq (v : V)
  | deq (wait : Bool)
  deriving DecidableEq, Repr

/-- Where a thread is: in no call, with the result of the last one, in a call that has not taken
effect, or in one that has and is about to return. -/
inductive QueueCall (V : Type) where
  | idle (ret : Option (Ret V))
  | called (op : QueueOp V)
  | done (r : Ret V)
  deriving DecidableEq, Repr

/-- What can be seen of a queue. -/
inductive QueueEvent (T V : Type) where
  | call (t : T) (op : QueueOp V)
  | ret (t : T) (r : Ret V)
  deriving DecidableEq, Repr

/-- The queue and the threads that use it. -/
@[ext] structure ConcurrentQueue (T V : Type) where
  contents : List V
  call : T → QueueCall V

/-- A call begins, takes effect, or returns. -/
inductive ConcurrentAct (T V : Type) where
  | call (t : T) (op : QueueOp V)
  | effect (t : T)
  | ret (t : T)
  deriving DecidableEq, Repr

namespace ConcurrentQueue

variable {T V : Type}

/-- An empty queue that nobody has called. -/
def new : ConcurrentQueue T V := { contents := [], call := fun _ ↦ .idle none }

/-- What can be seen of a step. -/
def see (q : ConcurrentQueue T V) : ConcurrentAct T V → ConcurrentQueue T V → List (QueueEvent T V)
  | .call t op, _ => [.call t op]
  | .effect _, _ => []
  | .ret t, _ =>
    match q.call t with
    | .done r => [.ret t r]
    | _ => []

variable [DecidableEq T]

/-- A thread goes on. -/
def goto (q : ConcurrentQueue T V) (t : T) (c : QueueCall V) : ConcurrentQueue T V :=
  { q with call := Function.update q.call t c }

/-- A call takes effect. Who waits for a value does so while there is none. -/
def effect (q : ConcurrentQueue T V) (t : T) : Option (ConcurrentQueue T V) :=
  match q.call t, q.contents with
  | .called (.enq v), l => some ({ q with contents := l ++ [v] }.goto t (.done .enqueued))
  | .called (.deq _), v :: l => some ({ q with contents := l }.goto t (.done (.got v)))
  | .called (.deq false), [] => some (q.goto t (.done .nothing))
  | _, _ => none

/-- One step, `src/ConcurrentQueue.hpp:4–15`. -/
def step (q : ConcurrentQueue T V) : ConcurrentAct T V → Option (ConcurrentQueue T V)
  | .call t op =>
    match q.call t with
    | .idle _ => some (q.goto t (.called op))
    | _ => none
  | .effect t => q.effect t
  | .ret t =>
    match q.call t with
    | .done r => some (q.goto t (.idle (some r)))
    | _ => none

end ConcurrentQueue

/-- Any number of threads that use a queue. -/
def concurrentQueue (T V : Type) [DecidableEq T] :
    Machine (ConcurrentQueue T V) (ConcurrentAct T V) where
  init := .new
  step := ConcurrentQueue.step

namespace ConcurrentQueue

variable {T V : Type} [DecidableEq T] {q : ConcurrentQueue T V} {t : T} {l : List V} {v : V}
  {c : QueueCall V} {op : QueueOp V} {r : Ret V} {ret : Option (Ret V)}

theorem call_goto (q : ConcurrentQueue T V) (t : T) (c : QueueCall V) : (q.goto t c).call t = c :=
  Function.update_self _ _ _

theorem call_goto_of_ne {u : T} (hut : u ≠ t) : (q.goto t c).call u = q.call u :=
  Function.update_of_ne hut _ _

/-! ### What may have come before -/

/-- What there was before a thread went on, if only this thread did. -/
def before (q : ConcurrentQueue T V) (t : T) (l : List V) (c : QueueCall V) :
    ConcurrentQueue T V := { contents := l, call := Function.update q.call t c }

theorem call_before (q : ConcurrentQueue T V) (t : T) (l : List V) (c : QueueCall V) :
    (q.before t l c).call t = c := Function.update_self _ _ _

theorem call_before_of_ne {u : T} (hut : u ≠ t) : (q.before t l c).call u = q.call u :=
  Function.update_of_ne hut _ _

theorem before_before (q : ConcurrentQueue T V) (t : T) (l l' : List V) (c c' : QueueCall V) :
    (q.before t l c).before t l' c' = q.before t l' c' := by
  simp [before]

private theorem goto_before (hcall : q.call t = c) {c' : QueueCall V} {l' : List V}
    (hl : q.contents = l') : { q.before t l c' with contents := l' }.goto t c = q := by
  ext1
  · exact hl.symm
  · simp [goto, before, ← hcall]

/-- A value has been added. -/
theorem shows_enq (hcall : q.call t = .done .enqueued) (hl : q.contents = l ++ [v]) :
    (concurrentQueue T V).Shows see (q.before t l (.called (.enq v))) q [] := by
  refine .of_step (a := ConcurrentAct.effect t) ?_
  change effect _ _ = _
  rw [effect, call_before]
  exact congrArg some (goto_before hcall hl)

/-- A value has been taken. -/
theorem shows_got (wait : Bool) (hcall : q.call t = .done (.got v)) (hl : v :: q.contents = l) :
    (concurrentQueue T V).Shows see (q.before t l (.called (.deq wait))) q [] := by
  refine .of_step (a := ConcurrentAct.effect t) ?_
  change effect _ _ = _
  rw [effect, call_before, ← hl]
  exact congrArg some (goto_before hcall rfl)

/-- There was none. -/
theorem shows_nothing (hcall : q.call t = .done .nothing) (hl : q.contents = []) :
    (concurrentQueue T V).Shows see (q.before t [] (.called (.deq false))) q [] := by
  refine .of_step (a := ConcurrentAct.effect t) ?_
  change effect _ _ = _
  rw [effect, call_before]
  exact congrArg some (goto_before (l := []) hcall hl)

/-- A call has returned. -/
theorem shows_ret (hcall : q.call t = .idle (some r)) (hl : q.contents = l) :
    (concurrentQueue T V).Shows see (q.before t l (.done r)) q [.ret t r] := by
  have hstep : (q.before t l (.done r)).step (.ret t) = some q := by
    rw [step, call_before]
    exact congrArg some (goto_before (l := l) hcall hl)
  have hsee : (q.before t l (.done r)).see (.ret t) q = [.ret t r] := by
    rw [see, call_before]
  exact hsee ▸ .of_step hstep

/-- A call has begun. -/
theorem shows_call (ret : Option (Ret V)) (hcall : q.call t = .called op) (hl : q.contents = l) :
    (concurrentQueue T V).Shows see (q.before t l (.idle ret)) q [.call t op] := by
  refine .of_step (a := ConcurrentAct.call t op) ?_
  change (q.before t l (.idle ret)).step (.call t op) = _
  rw [step, call_before]
  exact congrArg some (goto_before (l := l) hcall hl)

end ConcurrentQueue

end Filth
