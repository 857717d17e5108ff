import Filth.Base.Machine
import Mathlib.Logic.Function.Basic

/-!
# The lock-free queue

`LockFreeQueue`, `src/LockFreeQueue.hpp:58–167`: `enq`, `nowait_deq` and `wait_deq`, one read of a
shared variable, one compare-and-swap and one semaphore operation at a time, by any number of
threads. Nodes get addresses that have not been used before; a deleted node keeps its contents.
The last three fields of a queue are for the proofs alone.
-/

namespace Filth.LockFree

open Base

/-- Addresses of nodes. -/
abbrev Addr := Nat

/-- `LockFreeQueue::node`, `src/LockFreeQueue.hpp:30–36`; a null pointer is `none`. `freed` is no
member of the source. -/
structure Node (V : Type) where
  t : V
  next : Option Addr
  freed : Bool
  deriving DecidableEq, Repr

/-- What a call has returned. -/
inductive Ret (V : Type) where
  | enqueued
  | got (v : V)
  | nothing
  deriving DecidableEq, Repr

/-- Where a thread is, with its local variables: what it does next is named;
`src/LockFreeQueue.hpp:58–167`. In the dequeueing functions, `wait` tells `wait_deq` from
`nowait_deq`. -/
inductive Pc (V : Type) where
  /-- No call, and the result of the last one. -/
  | idle (ret : Option (Ret V))
  /-- `last = tail` -/
  | enqTail (v : V) (n : Addr)
  /-- `next = last->next` -/
  | enqNext (v : V) (n last : Addr)
  /-- `if (tail == last)` -/
  | enqTest (v : V) (n last : Addr) (next : Option Addr)
  /-- the swap of `last->next` -/
  | enqLink (v : V) (n last : Addr)
  /-- the swap of `tail` after that -/
  | enqSwing (n last : Addr)
  /-- `sz.up()` -/
  | enqUp
  /-- the swap of a `tail` that lags behind -/
  | enqHelp (v : V) (n last next : Addr)
  /-- `first = head` -/
  | deqHead (wait : Bool)
  /-- `last = tail` -/
  | deqTail (wait : Bool) (first : Addr)
  /-- `head`, of `next = head->next` -/
  | deqAgain (wait : Bool) (first last : Addr)
  /-- the rest of it -/
  | deqNext (wait : Bool) (first last again : Addr)
  /-- `if (first == head)` -/
  | deqTest (wait : Bool) (first last : Addr) (next : Option Addr)
  /-- the swap of a `tail` that lags behind -/
  | deqHelp (wait : Bool) (last next : Addr)
  /-- `t = next->t` -/
  | deqRead (wait : Bool) (first : Addr) (next : Option Addr)
  /-- the swap of `head` -/
  | deqSwing (wait : Bool) (first next : Addr) (v : V)
  /-- `sz.down()` after that -/
  | deqDown (wait : Bool) (first : Addr) (v : V)
  /-- `delete first` -/
  | deqFree (wait : Bool) (first : Addr) (v : V)
  /-- `sz.down()` when there is nothing to dequeue -/
  | waitDown
  /-- `sz.up()` after that -/
  | waitUp
  deriving DecidableEq, Repr

/-- The queue and the threads that use it, `src/LockFreeQueue.hpp:37–38`. -/
structure Queue (T V : Type) where
  heap : List (Node V)
  head : Addr
  tail : Addr
  /-- The value of the semaphore. -/
  sz : Nat
  pc : T → Pc V
  /-- The nodes that have been linked, each with the value that was enqueued. -/
  linked : List (Addr × V)
  /-- The nodes to which `head` has been swung, each with the value that is returned. -/
  taken : List (Addr × V)
  /-- How often `tail` has been swung. -/
  swung : Nat

/-- Calls, and single steps of a thread in a call. -/
inductive QueueAct (T V : Type) where
  | enq (t : T) (v : V)
  | deq (t : T) (wait : Bool)
  | go (t : T)
  deriving DecidableEq, Repr

namespace Queue

variable {T V : Type}

/-- The constructor, `src/LockFreeQueue.hpp:40`: one node, which holds whatever a node holds that is
not given a value. -/
def new (junk : V) : Queue T V :=
  { heap := [{ t := junk, next := none, freed := false }], head := 0, tail := 0, sz := 0
    pc := fun _ ↦ .idle none, linked := [], taken := [], swung := 0 }

/-- The swap of `tail`, `src/LockFreeQueue.hpp:71, 80`. -/
def casTail (s : Queue T V) (old new : Addr) : Queue T V :=
  if s.tail = old then { s with tail := new, swung := s.swung + 1 } else s

theorem pc_casTail (s : Queue T V) (old new : Addr) : (s.casTail old new).pc = s.pc := by
  unfold casTail
  split <;> rfl

/-- `new node(t)`, `src/LockFreeQueue.hpp:60`. -/
def alloc (s : Queue T V) (v : V) : Queue T V :=
  { s with heap := s.heap ++ [{ t := v, next := none, freed := false }] }

/-- The node `n` becomes the one after `last`, `src/LockFreeQueue.hpp:69`. -/
def link (s : Queue T V) (last n : Addr) (v : V) : Queue T V :=
  { s with
    heap := s.heap.modify last fun d ↦ { d with next := some n }
    linked := s.linked ++ [(n, v)] }

/-- The head becomes `next`, `src/LockFreeQueue.hpp:106`. -/
def swing (s : Queue T V) (next : Addr) (v : V) : Queue T V :=
  { s with head := next, taken := s.taken ++ [(next, v)] }

/-- `delete`, `src/LockFreeQueue.hpp:131`. -/
def free (s : Queue T V) (x : Addr) : Queue T V :=
  { s with heap := s.heap.modify x fun d ↦ { d with freed := true } }

/-- The semaphore gets a new value. -/
def setSz (s : Queue T V) (sz : Nat) : Queue T V := { s with sz }

variable [DecidableEq T]

/-- A thread goes on. -/
def goto (s : Queue T V) (t : T) (pc : Pc V) : Queue T V :=
  { s with pc := Function.update s.pc t pc }

theorem pc_goto_self (s : Queue T V) (t : T) (pc : Pc V) : (s.goto t pc).pc t = pc :=
  Function.update_self _ _ _

theorem pc_goto_of_ne (s : Queue T V) {t u : T} (h : u ≠ t) (pc : Pc V) :
    (s.goto t pc).pc u = s.pc u := Function.update_of_ne h _ _

/-- One step of a thread, `src/LockFreeQueue.hpp:58–167`. Where a null pointer is followed, or an
address that is none, there is none. -/
def go (s : Queue T V) (t : T) : Option (Queue T V) :=
  match s.pc t with
  | .idle _ => none
  | .enqTail v n => some (s.goto t (.enqNext v n s.tail))
  | .enqNext v n last => do
    let d ← s.heap[last]?
    return s.goto t (.enqTest v n last d.next)
  | .enqTest v n last next =>
    if s.tail = last then
      match next with
      | none => some (s.goto t (.enqLink v n last))
      | some next => some (s.goto t (.enqHelp v n last next))
    else some (s.goto t (.enqTail v n))
  | .enqLink v n last => do
    let d ← s.heap[last]?
    if d.next = none then return (s.link last n v).goto t (.enqSwing n last)
    else return s.goto t (.enqTail v n)
  | .enqSwing n last => some ((s.casTail last n).goto t .enqUp)
  | .enqUp => some ((s.setSz (s.sz + 1)).goto t (.idle (some .enqueued)))
  | .enqHelp v n last next => some ((s.casTail last next).goto t (.enqTail v n))
  | .deqHead wait => some (s.goto t (.deqTail wait s.head))
  | .deqTail wait first => some (s.goto t (.deqAgain wait first s.tail))
  | .deqAgain wait first last => some (s.goto t (.deqNext wait first last s.head))
  | .deqNext wait first last again => do
    let d ← s.heap[again]?
    return s.goto t (.deqTest wait first last d.next)
  | .deqTest wait first last next =>
    if s.head = first then
      if first = last then
        match next with
        | none => some (s.goto t (if wait then .waitDown else .idle (some .nothing)))
        | some next => some (s.goto t (.deqHelp wait last next))
      else some (s.goto t (.deqRead wait first next))
    else some (s.goto t (.deqHead wait))
  | .deqHelp wait last next => some ((s.casTail last next).goto t (.deqHead wait))
  | .deqRead _ _ none => none
  | .deqRead wait first (some next) => do
    let d ← s.heap[next]?
    return s.goto t (.deqSwing wait first next d.t)
  | .deqSwing wait first next v =>
    if s.head = first then
      some ((s.swing next v).goto t (.deqDown wait first v))
    else some (s.goto t (.deqHead wait))
  | .deqDown wait first v =>
    if 0 < s.sz then some ((s.setSz (s.sz - 1)).goto t (.deqFree wait first v)) else none
  | .deqFree _ first v => some ((s.free first).goto t (.idle (some (.got v))))
  | .waitDown => if 0 < s.sz then some ((s.setSz (s.sz - 1)).goto t .waitUp) else none
  | .waitUp => some ((s.setSz (s.sz + 1)).goto t (.deqHead true))

/-- One step. The node of `enq` is allocated when the call begins. -/
def step (s : Queue T V) : QueueAct T V → Option (Queue T V)
  | .enq t v =>
    match s.pc t with
    | .idle _ => some ((s.alloc v).goto t (.enqTail v s.heap.length))
    | _ => none
  | .deq t wait =>
    match s.pc t with
    | .idle _ => some (s.goto t (.deqHead wait))
    | _ => none
  | .go t => s.go t

/-- What a step of a thread in a call can be: one case for every way on from a place, with what the
thread finds there. -/
inductive Moves (s : Queue T V) (t : T) : Queue T V → Prop where
  | enqTail {v n} (hp : s.pc t = .enqTail v n) : Moves s t (s.goto t (.enqNext v n s.tail))
  | enqNext {v n last d} (hp : s.pc t = .enqNext v n last) (hd : s.heap[last]? = some d) :
      Moves s t (s.goto t (.enqTest v n last d.next))
  | enqLast {v n last} (hp : s.pc t = .enqTest v n last none) (htail : s.tail = last) :
      Moves s t (s.goto t (.enqLink v n last))
  | enqLags {v n last next} (hp : s.pc t = .enqTest v n last (some next)) (htail : s.tail = last) :
      Moves s t (s.goto t (.enqHelp v n last next))
  | enqMoved {v n last next} (hp : s.pc t = .enqTest v n last next) (htail : s.tail ≠ last) :
      Moves s t (s.goto t (.enqTail v n))
  | link {v n last d} (hp : s.pc t = .enqLink v n last) (hd : s.heap[last]? = some d)
      (hlast : d.next = none) : Moves s t ((s.link last n v).goto t (.enqSwing n last))
  | linkLost {v n last d} (hp : s.pc t = .enqLink v n last) (hd : s.heap[last]? = some d)
      (hlast : d.next ≠ none) : Moves s t (s.goto t (.enqTail v n))
  | enqSwing {n last} (hp : s.pc t = .enqSwing n last) :
      Moves s t ((s.casTail last n).goto t .enqUp)
  | enqUp (hp : s.pc t = .enqUp) :
      Moves s t ((s.setSz (s.sz + 1)).goto t (.idle (some .enqueued)))
  | enqHelp {v n last next} (hp : s.pc t = .enqHelp v n last next) :
      Moves s t ((s.casTail last next).goto t (.enqTail v n))
  | deqHead {wait} (hp : s.pc t = .deqHead wait) : Moves s t (s.goto t (.deqTail wait s.head))
  | deqTail {wait first} (hp : s.pc t = .deqTail wait first) :
      Moves s t (s.goto t (.deqAgain wait first s.tail))
  | deqAgain {wait first last} (hp : s.pc t = .deqAgain wait first last) :
      Moves s t (s.goto t (.deqNext wait first last s.head))
  | deqNext {wait first last again d} (hp : s.pc t = .deqNext wait first last again)
      (hd : s.heap[again]? = some d) : Moves s t (s.goto t (.deqTest wait first last d.next))
  | nothing {first} (hp : s.pc t = .deqTest false first first none) (hhead : s.head = first) :
      Moves s t (s.goto t (.idle (some .nothing)))
  | sleep {first} (hp : s.pc t = .deqTest true first first none) (hhead : s.head = first) :
      Moves s t (s.goto t .waitDown)
  | deqLags {wait first next} (hp : s.pc t = .deqTest wait first first (some next))
      (hhead : s.head = first) : Moves s t (s.goto t (.deqHelp wait first next))
  | deqFound {wait first last next} (hp : s.pc t = .deqTest wait first last next)
      (hhead : s.head = first) (hne : first ≠ last) :
      Moves s t (s.goto t (.deqRead wait first next))
  | deqMoved {wait first last next} (hp : s.pc t = .deqTest wait first last next)
      (hhead : s.head ≠ first) : Moves s t (s.goto t (.deqHead wait))
  | deqHelp {wait last next} (hp : s.pc t = .deqHelp wait last next) :
      Moves s t ((s.casTail last next).goto t (.deqHead wait))
  | deqRead {wait first next d} (hp : s.pc t = .deqRead wait first (some next))
      (hd : s.heap[next]? = some d) : Moves s t (s.goto t (.deqSwing wait first next d.t))
  | swing {wait first next v} (hp : s.pc t = .deqSwing wait first next v) (hhead : s.head = first) :
      Moves s t ((s.swing next v).goto t (.deqDown wait first v))
  | swingLost {wait first next v} (hp : s.pc t = .deqSwing wait first next v)
      (hhead : s.head ≠ first) : Moves s t (s.goto t (.deqHead wait))
  | deqDown {wait first v} (hp : s.pc t = .deqDown wait first v) (hpos : 0 < s.sz) :
      Moves s t ((s.setSz (s.sz - 1)).goto t (.deqFree wait first v))
  | deqFree {wait first v} (hp : s.pc t = .deqFree wait first v) :
      Moves s t ((s.free first).goto t (.idle (some (.got v))))
  | waitDown (hp : s.pc t = .waitDown) (hpos : 0 < s.sz) :
      Moves s t ((s.setSz (s.sz - 1)).goto t .waitUp)
  | waitUp (hp : s.pc t = .waitUp) : Moves s t ((s.setSz (s.sz + 1)).goto t (.deqHead true))

/-- Every step of a thread in a call is one of these. -/
theorem go_moves {s s' : Queue T V} {t : T} (h : s.go t = some s') : Moves s t s' := by
  unfold go at h
  split at h
  case h_1 => cases h
  case h_2 hp => cases h; exact .enqTail hp
  case h_3 hp =>
    obtain ⟨d, hd, h⟩ := Option.bind_eq_some_iff.mp h
    cases h
    exact .enqNext hp hd
  case h_4 next hp =>
    split at h
    · next htail =>
      split at h
      · cases h
        exact .enqLast hp htail
      · cases h
        exact .enqLags hp htail
    · next htail =>
      cases h
      exact .enqMoved hp htail
  case h_5 hp =>
    obtain ⟨d, hd, h⟩ := Option.bind_eq_some_iff.mp h
    split at h
    · next hlast =>
      cases h
      exact .link hp hd hlast
    · next hlast =>
      cases h
      exact .linkLost hp hd hlast
  case h_6 hp => cases h; exact .enqSwing hp
  case h_7 hp => cases h; exact .enqUp hp
  case h_8 hp => cases h; exact .enqHelp hp
  case h_9 hp => cases h; exact .deqHead hp
  case h_10 hp => cases h; exact .deqTail hp
  case h_11 hp => cases h; exact .deqAgain hp
  case h_12 hp =>
    obtain ⟨d, hd, h⟩ := Option.bind_eq_some_iff.mp h
    cases h
    exact .deqNext hp hd
  case h_13 wait first last next hp =>
    split at h
    · next hhead =>
      split at h
      · next hsame =>
        subst hsame
        split at h
        · cases h
          cases wait
          · exact .nothing hp hhead
          · exact .sleep hp hhead
        · cases h
          exact .deqLags hp hhead
      · next hne =>
        cases h
        exact .deqFound hp hhead hne
    · next hhead =>
      cases h
      exact .deqMoved hp hhead
  case h_14 hp => cases h; exact .deqHelp hp
  case h_15 => cases h
  case h_16 hp =>
    obtain ⟨d, hd, h⟩ := Option.bind_eq_some_iff.mp h
    cases h
    exact .deqRead hp hd
  case h_17 hp =>
    split at h
    · next hhead =>
      cases h
      exact .swing hp hhead
    · next hhead =>
      cases h
      exact .swingLost hp hhead
  case h_18 hp =>
    split at h
    · next hpos =>
      cases h
      exact .deqDown hp hpos
    · cases h
  case h_19 hp => cases h; exact .deqFree hp
  case h_20 hp =>
    split at h
    · next hpos =>
      cases h
      exact .waitDown hp hpos
    · cases h
  case h_21 hp => cases h; exact .waitUp hp

/-- What a step is: a call begins, or a thread in a call goes on. -/
inductive Steps (s : Queue T V) : QueueAct T V → Queue T V → Prop where
  | enq {t v r} (hp : s.pc t = .idle r) :
      Steps s (.enq t v) ((s.alloc v).goto t (.enqTail v s.heap.length))
  | deq {t wait r} (hp : s.pc t = .idle r) : Steps s (.deq t wait) (s.goto t (.deqHead wait))
  | go {t s'} (h : s.go t = some s') : Steps s (.go t) s'

theorem steps_of_step {s s' : Queue T V} {a : QueueAct T V} (h : s.step a = some s') :
    Steps s a s' := by
  cases a with
  | enq t v =>
    simp only [step] at h
    split at h
    · next hp =>
      cases h
      exact .enq hp
    · cases h
  | deq t wait =>
    simp only [step] at h
    split at h
    · next hp =>
      cases h
      exact .deq hp
    · cases h
  | go t => exact .go h

/-- What has been enqueued and not yet dequeued. -/
def contents (s : Queue T V) : List V := (s.linked.drop s.taken.length).map Prod.snd

end Queue

/-- Any number of threads that use a queue. -/
def lockFreeQueue (T : Type) [DecidableEq T] {V : Type} (junk : V) :
    Machine (Queue T V) (QueueAct T V) where
  init := .new junk
  step := Queue.step

end Filth.LockFree
