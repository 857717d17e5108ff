import Filth.Base.Machine
import Filth.Cache.Sections

/-!
# Threads inside the cache

Any number of threads run the member functions of one `Cache`, section by section and in any
order; `src/Cache.hpp:80–219`. A thread's program counter names the section it is about to
enter, with what it has read so far. A write section waits until no thread is inside a read
section: the only read section with two shared accesses is that of `unget`, so it is the only
one a thread can be found in. References handed out and not yet given back are recorded.
-/

namespace Filth.Cache

open Base

/-- Where a thread is. -/
inductive Pc (H S : Type) where
  /-- Outside the cache. -/
  | idle
  /-- `put` before the reservation, `put_tryagain`; line 132. -/
  | reserve (h : H) (s : S) (sz : Nat)
  /-- `put` after a reservation that went over the maximum; line 133. -/
  | giveBack (h : H) (s : S) (sz : Nat)
  /-- `put` in the loop of `evict()`; line 177. -/
  | pop (h : H) (s : S) (sz : Nat)
  /-- `put` in the loop of `evict()`, about to try `victim`; line 186. -/
  | evict (h : H) (s : S) (sz : Nat) (victim : H)
  /-- `put` before the allocation; line 143. -/
  | alloc (h : H) (s : S) (sz : Nat)
  /-- `put` after a failed allocation; line 145. -/
  | giveUp (sz : Nat)
  /-- `put` before its write section; line 149. -/
  | insert (h : H) (s : S) (sz : Nat)
  /-- `unget` inside its read section, having dropped the last reference; line 106. -/
  | ungetRead (h : H)
  /-- `unget` about to evict an entry marked invalid; line 112. -/
  | ungetEvict (h : H)
  /-- `unget` about to queue the handle; line 113. -/
  | enq (h : H)
  deriving DecidableEq, Repr

namespace Pc

variable {H S : Type}

/-- The thread is inside a read section of `cachelock`. -/
def reading : Pc H S → Bool
  | ungetRead _ => true
  | _ => false

/-- What the thread has added to `cur` for an entry that is not in the cache. -/
def reserved : Pc H S → Nat
  | giveBack _ _ sz => sz
  | alloc _ _ sz => sz
  | giveUp sz => sz
  | insert _ _ sz => sz
  | _ => 0

/-- The part of the reservation that was found to fit. -/
def admitted : Pc H S → Nat
  | alloc _ _ sz => sz
  | giveUp sz => sz
  | insert _ _ sz => sz
  | _ => 0

/-- A reservation that fits is a reservation. -/
theorem admitted_le_reserved (p : Pc H S) : p.admitted ≤ p.reserved := by
  cases p <;> simp [admitted, reserved]

end Pc

/-- A reference that a thread obtained by `get` or `put` and has not given back. -/
structure Hold (T H : Type) where
  thread : T
  handle : H
  id : Nat
  deriving DecidableEq, Repr

/-- The cache, the threads using it and the references they hold. -/
structure State (T H S : Type) where
  shared : Cache H S
  pc : T → Pc H S
  holds : List (Hold T H)

/-- What may happen next: a thread starts a member function, or goes through one more
section. `id` tells which of its references a thread gives back, `victim` which handle
`begin()` delivers, `ok` whether `new` succeeds. -/
inductive Act (T H S : Type) where
  | get (t : T) (h : H)
  | unget (t : T) (h : H) (id : Nat)
  | put (t : T) (h : H) (s : S) (sz : Nat)
  | adviseEvict (t : T) (h : H)
  | flush (t : T)
  | pop (t : T) (victim : H)
  | alloc (t : T) (ok : Bool)
  | go (t : T)
  deriving DecidableEq, Repr

namespace State

variable {T H S : Type} [DecidableEq T]

/-- Thread `t` leaves the cache as `c` and comes to `p`. -/
def move (s : State T H S) (t : T) (c : Cache H S) (p : Pc H S) : State T H S :=
  { s with shared := c, pc := Function.update s.pc t p }

/-- Thread `t` starts a member function that needs only one section. -/
def within (s : State T H S) (c : Cache H S) : State T H S := { s with shared := c }

/-- No thread is inside a read section, so a write section may be entered. -/
def NoReader (s : State T H S) : Prop := ∀ t, (s.pc t).reading = false

instance [Fintype T] (s : State T H S) : Decidable s.NoReader :=
  inferInstanceAs (Decidable (∀ t, (s.pc t).reading = false))

variable [DecidableEq H]

/-- The next section of a thread whose next section is determined. -/
def goOn [Fintype T] (s : State T H S) (t : T) : Option (State T H S) :=
  match s.pc t with
  | .idle => none
  | .reserve h x sz =>
    some (s.move t (s.shared.reserve sz).2
      (if (s.shared.reserve sz).1 then .alloc h x sz else .giveBack h x sz))
  | .giveBack h x sz => some (s.move t (s.shared.giveBack sz) (.pop h x sz))
  | .pop _ _ _ => if s.shared.toevict = [] then some (s.move t s.shared .idle) else none
  | .evict h x sz v =>
    if s.NoReader then
      some (s.move t (s.shared.evictHandle v).2
        (if (s.shared.evictHandle v).1 then .reserve h x sz else .pop h x sz))
    else none
  | .alloc _ _ _ => none
  | .giveUp sz => some (s.move t (s.shared.giveBack sz) .idle)
  | .insert h x sz =>
    if s.NoReader then
      some { s.move t (s.shared.insertNew h x sz).2 .idle with
        holds := if (s.shared.insertNew h x sz).1 then ⟨t, h, s.shared.stored⟩ :: s.holds
          else s.holds }
    else none
  | .ungetRead h =>
    some (s.move t s.shared (if s.shared.isInvalid h then .ungetEvict h else .enq h))
  | .ungetEvict h =>
    if s.NoReader then
      some (s.move t (s.shared.evictHandle h).2
        (if (s.shared.evictHandle h).1 then .idle else .enq h))
    else none
  | .enq h => some (s.move t (s.shared.enq h) .idle)

/-- One step of the threads. -/
def step [Fintype T] (s : State T H S) : Act T H S → Option (State T H S)
  | .get t h =>
    match s.pc t with
    | .idle => some { s with
        shared := (s.shared.getSection h).2
        holds := match (s.shared.getSection h).1 with
          | none => s.holds
          | some e => ⟨t, h, e.id⟩ :: s.holds }
    | _ => none
  | .unget t h id =>
    match s.pc t with
    | .idle =>
      if ⟨t, h, id⟩ ∈ s.holds then
        some { s.move t (s.shared.ungetSection h).2
            (if (s.shared.ungetSection h).1 then .ungetRead h else .idle) with
          holds := s.holds.erase ⟨t, h, id⟩ }
      else none
    | _ => none
  | .put t h x sz =>
    match s.pc t with
    | .idle =>
      if s.shared.max < sz then some s
      else match s.shared.find h with
        | some _ => some s
        | none => some (s.move t s.shared (.reserve h x sz))
    | _ => none
  | .adviseEvict t h =>
    match s.pc t with
    | .idle => some (s.within (s.shared.adviseEvict h))
    | _ => none
  | .flush t =>
    match s.pc t with
    | .idle => if s.NoReader then some (s.within s.shared.flush) else none
    | _ => none
  | .pop t v =>
    match s.pc t with
    | .pop h x sz =>
      if v ∈ s.shared.toevict then some (s.move t (s.shared.pop v) (.evict h x sz v)) else none
    | _ => none
  | .alloc t ok =>
    match s.pc t with
    | .alloc h x sz => some (s.move t s.shared (if ok then .insert h x sz else .giveUp sz))
    | _ => none
  | .go t => s.goOn t

/-- What a step can do, with what it requires: one case for every section. -/
inductive Moves [Fintype T] (s : State T H S) : Act T H S → State T H S → Prop where
  | get {t h} (hp : s.pc t = .idle) : Moves s (.get t h) { s with
      shared := (s.shared.getSection h).2
      holds := match s.shared.find h with
        | none => s.holds
        | some e => ⟨t, h, e.id⟩ :: s.holds }
  | unget {t h id} (hp : s.pc t = .idle) (hm : ⟨t, h, id⟩ ∈ s.holds) : Moves s (.unget t h id)
      { s.move t (s.shared.ungetSection h).2
          (if (s.shared.ungetSection h).1 then .ungetRead h else .idle) with
        holds := s.holds.erase ⟨t, h, id⟩ }
  | putRefused {t h x sz} (hp : s.pc t = .idle)
      (hr : s.shared.max < sz ∨ (s.shared.find h).isSome) : Moves s (.put t h x sz) s
  | put {t h x sz} (hp : s.pc t = .idle) (hz : sz ≤ s.shared.max)
      (hn : s.shared.find h = none) :
      Moves s (.put t h x sz) (s.move t s.shared (.reserve h x sz))
  | adviseEvict {t h} (hp : s.pc t = .idle) :
      Moves s (.adviseEvict t h) (s.within (s.shared.adviseEvict h))
  | flush {t} (hp : s.pc t = .idle) (hw : s.NoReader) :
      Moves s (.flush t) (s.within s.shared.flush)
  | reserve {t h x sz} (hp : s.pc t = .reserve h x sz) : Moves s (.go t)
      (s.move t (s.shared.reserve sz).2
        (if (s.shared.reserve sz).1 then .alloc h x sz else .giveBack h x sz))
  | giveBack {t h x sz} (hp : s.pc t = .giveBack h x sz) :
      Moves s (.go t) (s.move t (s.shared.giveBack sz) (.pop h x sz))
  | popEmpty {t h x sz} (hp : s.pc t = .pop h x sz) (he : s.shared.toevict = []) :
      Moves s (.go t) (s.move t s.shared .idle)
  | pop {t h x sz v} (hp : s.pc t = .pop h x sz) (hv : v ∈ s.shared.toevict) :
      Moves s (.pop t v) (s.move t (s.shared.pop v) (.evict h x sz v))
  | evict {t h x sz v} (hp : s.pc t = .evict h x sz v) (hw : s.NoReader) : Moves s (.go t)
      (s.move t (s.shared.evictHandle v).2
        (if (s.shared.evictHandle v).1 then .reserve h x sz else .pop h x sz))
  | alloc {t h x sz ok} (hp : s.pc t = .alloc h x sz) : Moves s (.alloc t ok)
      (s.move t s.shared (if ok then .insert h x sz else .giveUp sz))
  | giveUp {t sz} (hp : s.pc t = .giveUp sz) :
      Moves s (.go t) (s.move t (s.shared.giveBack sz) .idle)
  | insert {t h x sz} (hp : s.pc t = .insert h x sz) (hw : s.NoReader) : Moves s (.go t)
      { s.move t (s.shared.insertNew h x sz).2 .idle with
        holds := if (s.shared.insertNew h x sz).1 then ⟨t, h, s.shared.stored⟩ :: s.holds
          else s.holds }
  | ungetRead {t h} (hp : s.pc t = .ungetRead h) : Moves s (.go t)
      (s.move t s.shared (if s.shared.isInvalid h then .ungetEvict h else .enq h))
  | ungetEvict {t h} (hp : s.pc t = .ungetEvict h) (hw : s.NoReader) : Moves s (.go t)
      (s.move t (s.shared.evictHandle h).2
        (if (s.shared.evictHandle h).1 then .idle else .enq h))
  | enq {t h} (hp : s.pc t = .enq h) : Moves s (.go t) (s.move t (s.shared.enq h) .idle)

private theorem goOn_moves [Fintype T] {s s' : State T H S} {t : T} (h : s.goOn t = some s') :
    Moves s (.go t) s' := by
  unfold goOn at h
  split at h
  case h_1 | h_6 => cases h
  case h_2 hp => cases h; exact .reserve hp
  case h_3 hp => cases h; exact .giveBack hp
  case h_4 hp =>
    split at h
    · next he => cases h; exact .popEmpty hp he
    · cases h
  case h_5 hp =>
    split at h
    · next hw => cases h; exact .evict hp hw
    · cases h
  case h_7 hp => cases h; exact .giveUp hp
  case h_8 hp =>
    split at h
    · next hw => cases h; exact .insert hp hw
    · cases h
  case h_9 hp => cases h; exact .ungetRead hp
  case h_10 hp =>
    split at h
    · next hw => cases h; exact .ungetEvict hp hw
    · cases h
  case h_11 hp => cases h; exact .enq hp

/-- Every step is one of the listed sections. -/
theorem step_moves [Fintype T] {s s' : State T H S} {a : Act T H S} (h : s.step a = some s') :
    Moves s a s' := by
  cases a with
  | go t => exact goOn_moves h
  | get t k =>
    simp only [step] at h
    split at h
    · next hp => cases h; exact .get hp
    · cases h
  | unget t k id =>
    simp only [step] at h
    split at h
    · next hp =>
      split at h
      · next hm => cases h; exact .unget hp hm
      · cases h
    · cases h
  | put t k x sz =>
    simp only [step] at h
    split at h
    · next hp =>
      split at h
      · next hz => cases h; exact .putRefused hp (.inl hz)
      · next hz =>
        split at h
        · next hf => cases h; exact .putRefused hp (.inr (by rw [hf]; rfl))
        · next hn => cases h; exact .put hp (Nat.le_of_not_lt hz) hn
    · cases h
  | adviseEvict t k =>
    simp only [step] at h
    split at h
    · next hp => cases h; exact .adviseEvict hp
    · cases h
  | flush t =>
    simp only [step] at h
    split at h
    · next hp =>
      split at h
      · next hw => cases h; exact .flush hp hw
      · cases h
    · cases h
  | pop t v =>
    simp only [step] at h
    split at h
    · next hp =>
      split at h
      · next hv => cases h; exact .pop hp hv
      · cases h
    · cases h
  | alloc t ok =>
    simp only [step] at h
    split at h
    · next hp => cases h; exact .alloc hp
    · cases h

end State

/-- Threads over a new cache of the given capacity. -/
def threads (T H S : Type) [Fintype T] [DecidableEq T] [DecidableEq H] (max : Nat) :
    Machine (State T H S) (Act T H S) where
  init := { shared := Cache.new max, pc := fun _ ↦ .idle, holds := [] }
  step := State.step

end Filth.Cache
