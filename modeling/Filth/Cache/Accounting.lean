import Filth.Base.Census
import Filth.Cache.Threads

/-!
# The size counter of the cache

`src/Cache.hpp:119–209`. `put` adds the size of its entry to `cur` before it knows whether the
entry will be stored, and gives it back when it will not. So `cur` should be the total size of
the entries plus what the puts in progress have reserved. Three places break that: the last
section of `put` keeps the reservation when another thread stored the handle first, `flush`
sets the counter to zero under the reservations of others, and enough reservations at once can
carry the counter past 64 bits. The steps that do none of these keep the books exactly.
-/

namespace Filth.Cache

open Base

variable {T H S : Type} [Fintype T]

namespace State

/-- What the puts in progress have added to `cur`. -/
def reserved (s : State T H S) : Nat := ∑ t, (s.pc t).reserved

/-- What the puts in progress have reserved and may still store. -/
def admitted (s : State T H S) : Nat := ∑ t, (s.pc t).admitted

/-- Reservations that may still be stored are reservations. -/
theorem admitted_le_reserved (s : State T H S) : s.admitted ≤ s.reserved :=
  Finset.sum_le_sum fun t _ ↦ (s.pc t).admitted_le_reserved

/-- A thread's own reservation is part of the total. -/
private theorem reserved_le (s : State T H S) (t : T) : (s.pc t).reserved ≤ s.reserved :=
  Finset.single_le_sum (f := fun t ↦ (s.pc t).reserved) (fun _ _ ↦ Nat.zero_le _)
    (Finset.mem_univ t)

/-- Without operations in progress nothing is reserved. -/
theorem reserved_of_idle {s : State T H S} (h : ∀ t, s.pc t = .idle) : s.reserved = 0 := by
  apply Finset.sum_eq_zero
  intro t _
  rw [h t]
  rfl

end State

variable [DecidableEq H]

/-- The books are in order: `cur` is the size of the entries plus the reservations, every
subtraction that may follow is covered, and between operations `cur` is the size of the
entries and within the maximum. -/
structure Accounted (s : State T H S) : Prop where
  balance : s.shared.cur = s.shared.size + s.reserved
  coversPut : ∀ t, (s.pc t).reserved ≤ s.shared.cur
  coversEvict : ∀ h e, s.shared.find h = some e → e.sz ≤ s.shared.cur
  quiet : (∀ t, s.pc t = .idle) → s.shared.cur = s.shared.size ∧ s.shared.cur ≤ s.shared.max

/-- The steps that keep the books: no flush under a reservation, no lost race for a handle by
a put that reserved anything, no reservation past 64 bits. -/
def Harmless (s : State T H S) : Act T H S → Prop
  | .flush _ => s.reserved = 0
  | .go t =>
    match s.pc t with
    | .reserve _ _ sz => s.shared.cur + sz < sizeBound
    | .insert h _ sz => s.shared.find h = none ∨ sz = 0
    | _ => True
  | _ => True

/-- What the proof carries along: what is cached or may still be stored fits, and the
counter is a counter. -/
structure Fits (s : State T H S) : Prop where
  room : s.shared.size + s.admitted ≤ s.shared.max
  bound : s.shared.cur < sizeBound

/-- A balanced state that fits is in order. -/
theorem Fits.accounted {s : State T H S} (hF : Fits s)
    (hb : s.shared.cur = s.shared.size + s.reserved) : Accounted s := by
  constructor
  case balance => exact hb
  case coversPut =>
    intro t
    have := s.reserved_le t
    omega
  case coversEvict =>
    intro h e he
    have : e.sz ≤ s.shared.size := weight_le_of_lookup Stuff.sz he
    omega
  case quiet =>
    intro hq
    have hr := State.reserved_of_idle hq
    have := hF.room
    omega

/-- What a step can do to the books. -/
inductive SizeStep (s : State T H S) (a : Act T H S) (s' : State T H S) : Prop where
  | quiet (hC : Harmless s a) (hc : s'.shared.cur = s.shared.cur)
      (hs : s'.shared.size = s.shared.size) (hr : s'.reserved = s.reserved)
      (ha : s'.admitted = s.admitted)
  | reserve (sz : Nat) (hC : Harmless s a ↔ s.shared.cur + sz < sizeBound)
      (hc : s'.shared.cur = sizeAdd s.shared.cur sz) (hs : s'.shared.size = s.shared.size)
      (hr : s'.reserved = s.reserved + sz)
      (ha : s'.admitted =
        s.admitted + if sizeAdd s.shared.cur sz ≤ s.shared.max then sz else 0)
  | giveBack (sz : Nat) (hC : Harmless s a) (hc : s'.shared.cur = sizeSub s.shared.cur sz)
      (hs : s'.shared.size = s.shared.size) (hr : s.reserved = s'.reserved + sz)
      (ha : s'.admitted ≤ s.admitted)
  | evict (sz : Nat) (hC : Harmless s a) (hc : s'.shared.cur = sizeSub s.shared.cur sz)
      (hs : s.shared.size = s'.shared.size + sz) (hr : s'.reserved = s.reserved)
      (ha : s'.admitted = s.admitted)
  | insert (sz : Nat) (hC : Harmless s a) (hc : s'.shared.cur = s.shared.cur)
      (hs : s'.shared.size = s.shared.size + sz) (hr : s.reserved = s'.reserved + sz)
      (ha : s.admitted = s'.admitted + sz)
  | lost (sz : Nat) (hC : Harmless s a ↔ sz = 0) (hc : s'.shared.cur = s.shared.cur)
      (hs : s'.shared.size = s.shared.size) (hr : s.reserved = s'.reserved + sz)
      (ha : s.admitted = s'.admitted + sz)
  | flush (hC : Harmless s a ↔ s.reserved = 0) (hc : s'.shared.cur = 0)
      (hs : s'.shared.size = 0) (hr : s'.reserved = s.reserved) (ha : s'.admitted = s.admitted)

variable [DecidableEq T]

omit [DecidableEq H] in
private theorem reserved_move (s : State T H S) (t : T) (c : Cache H S) (p : Pc H S) :
    (s.move t c p).reserved + (s.pc t).reserved = s.reserved + p.reserved :=
  sum_update Pc.reserved s.pc t p

omit [DecidableEq H] in
private theorem admitted_move (s : State T H S) (t : T) (c : Cache H S) (p : Pc H S) :
    (s.move t c p).admitted + (s.pc t).admitted = s.admitted + p.admitted :=
  sum_update Pc.admitted s.pc t p

private theorem quiet_move {s : State T H S} {a : Act T H S} {t : T} {c : Cache H S} {p : Pc H S}
    {hs : List (Hold T H)} (hC : Harmless s a) (hc : c.cur = s.shared.cur)
    (hz : c.size = s.shared.size) (hr : p.reserved = (s.pc t).reserved)
    (ha : p.admitted = (s.pc t).admitted) :
    SizeStep s a { s.move t c p with holds := hs } := by
  have hR := reserved_move s t c p
  have hA := admitted_move s t c p
  exact .quiet hC hc hz (by change (s.move t c p).reserved = _; omega)
    (by change (s.move t c p).admitted = _; omega)

private theorem evict_move {s : State T H S} {t : T} {v : H} {p q : Pc H S}
    (hC : Harmless s (.go t)) (hp : p.reserved = (s.pc t).reserved)
    (hp' : p.admitted = (s.pc t).admitted) (hq : q.reserved = (s.pc t).reserved)
    (hq' : q.admitted = (s.pc t).admitted) :
    SizeStep s (.go t) (s.move t (s.shared.evictHandle v).2
      (if (s.shared.evictHandle v).1 then p else q)) := by
  rcases s.shared.evictHandle_cases v with ⟨hc, -⟩ | ⟨e, he, hz, hc⟩
  · rw [hc]
    exact quiet_move hC rfl rfl hq hq'
  · have hw := Cache.size_evictHandle he hz
    have hcur : (s.shared.evictHandle v).2.cur = sizeSub s.shared.cur e.sz := by rw [hc]
    have hR := reserved_move s t (s.shared.evictHandle v).2 p
    have hA := admitted_move s t (s.shared.evictHandle v).2 p
    have hv : (s.shared.evictHandle v).1 = true := by rw [hc]
    rw [if_pos hv]
    exact .evict e.sz hC hcur hw (by omega) (by omega)

/-- Every step is of one of these kinds. -/
private theorem step_sizeStep {s s' : State T H S} {a : Act T H S} (h : s.step a = some s') :
    SizeStep s a s' := by
  cases State.step_moves h with
  | @get t k => exact .quiet trivial rfl (s.shared.size_getSection k) rfl rfl
  | @unget t k id hp =>
    exact quiet_move trivial rfl (s.shared.size_ungetSection k) (by rw [hp]; split <;> rfl)
      (by rw [hp]; split <;> rfl)
  | putRefused => exact .quiet trivial rfl rfl rfl rfl
  | put hp => exact quiet_move trivial rfl rfl (by rw [hp]; rfl) (by rw [hp]; rfl)
  | @adviseEvict t k => exact .quiet trivial rfl (s.shared.size_adviseEvict k) rfl rfl
  | flush => exact .flush Iff.rfl rfl rfl rfl rfl
  | @reserve t k x sz hp =>
    have hR := reserved_move s t (s.shared.reserve sz).2
      (if (s.shared.reserve sz).1 then .alloc k x sz else .giveBack k x sz)
    have hA := admitted_move s t (s.shared.reserve sz).2
      (if (s.shared.reserve sz).1 then .alloc k x sz else .giveBack k x sz)
    have hv : (s.shared.reserve sz).1 = decide (sizeAdd s.shared.cur sz ≤ s.shared.max) := rfl
    rw [hp] at hR hA
    refine .reserve sz (by simp [Harmless, hp]) rfl rfl ?_ ?_
    · cases hv : (s.shared.reserve sz).1 <;>
        simp only [hv, Bool.false_eq_true, ↓reduceIte, Pc.reserved] at hR ⊢ <;> omega
    · by_cases hle : sizeAdd s.shared.cur sz ≤ s.shared.max <;>
        simp only [hv, hle, decide_true, decide_false, Bool.false_eq_true, ↓reduceIte,
          Pc.admitted] at hA ⊢ <;> omega
  | @giveBack t k x sz hp =>
    have hR := reserved_move s t (s.shared.giveBack sz) (.pop k x sz)
    have hA := admitted_move s t (s.shared.giveBack sz) (.pop k x sz)
    rw [hp] at hR hA
    simp only [Pc.reserved, Pc.admitted] at hR hA
    exact .giveBack sz (by simp [Harmless, hp]) rfl rfl (by omega) (by omega)
  | popEmpty hp =>
    exact quiet_move (by simp [Harmless, hp]) rfl rfl (by rw [hp]; rfl) (by rw [hp]; rfl)
  | pop hp => exact quiet_move trivial rfl rfl (by rw [hp]; rfl) (by rw [hp]; rfl)
  | evict hp | ungetEvict hp =>
    exact evict_move (by simp [Harmless, hp]) (by rw [hp]; rfl) (by rw [hp]; rfl)
      (by rw [hp]; rfl) (by rw [hp]; rfl)
  | alloc hp =>
    exact quiet_move trivial rfl rfl (by rw [hp]; split <;> rfl) (by rw [hp]; split <;> rfl)
  | @giveUp t sz hp =>
    have hR := reserved_move s t (s.shared.giveBack sz) .idle
    have hA := admitted_move s t (s.shared.giveBack sz) .idle
    rw [hp] at hR hA
    simp only [Pc.reserved, Pc.admitted] at hR hA
    exact .giveBack sz (by simp [Harmless, hp]) rfl rfl (by omega) (by omega)
  | @insert t k x sz hp =>
    have hR := reserved_move s t (s.shared.insertNew k x sz).2 .idle
    have hA := admitted_move s t (s.shared.insertNew k x sz).2 .idle
    rw [hp] at hR hA
    simp only [Pc.reserved, Pc.admitted] at hR hA
    rcases s.shared.insertNew_cases k x sz with ⟨e, he, hc⟩ | ⟨hn, hc⟩
    · have hcur : (s.shared.insertNew k x sz).2 = s.shared := by rw [hc]
      refine .lost sz (by simp [Harmless, hp, he]) (congrArg Cache.cur hcur)
        (congrArg Cache.size hcur) ?_ ?_
      · show s.reserved = (s.move t (s.shared.insertNew k x sz).2 .idle).reserved + sz
        omega
      · show s.admitted = (s.move t (s.shared.insertNew k x sz).2 .idle).admitted + sz
        omega
    · have hcur : (s.shared.insertNew k x sz).2.cur = s.shared.cur := by rw [hc]
      refine .insert sz (by simp [Harmless, hp, hn]) hcur (Cache.size_insertNew hn x sz) ?_ ?_
      · show s.reserved = (s.move t (s.shared.insertNew k x sz).2 .idle).reserved + sz
        omega
      · show s.admitted = (s.move t (s.shared.insertNew k x sz).2 .idle).admitted + sz
        omega
  | ungetRead hp =>
    exact quiet_move (by simp [Harmless, hp]) rfl rfl (by rw [hp]; split <;> rfl)
      (by rw [hp]; split <;> rfl)
  | enq hp => exact quiet_move (by simp [Harmless, hp]) rfl rfl (by rw [hp]; rfl) (by rw [hp]; rfl)

/-- No step changes the capacity. -/
theorem step_max {s s' : State T H S} {a : Act T H S} (h : s.step a = some s') :
    s'.shared.max = s.shared.max := by
  have hev (v : H) : (s.shared.evictHandle v).2.max = s.shared.max := by
    rcases s.shared.evictHandle_cases v with ⟨hc, -⟩ | ⟨e, -, -, hc⟩ <;> rw [hc]
  have hin (k : H) (x : S) (sz : Nat) : (s.shared.insertNew k x sz).2.max = s.shared.max := by
    rcases s.shared.insertNew_cases k x sz with ⟨e, -, hc⟩ | ⟨-, hc⟩ <;> rw [hc]
  cases State.step_moves h with
  | evict | ungetEvict => exact hev _
  | insert => exact hin _ _ _
  | _ => rfl

/-- Where the books are in order, a step keeps them so precisely when it is harmless. -/
theorem accounted_step {s s' : State T H S} {a : Act T H S} (hA : Accounted s) (hF : Fits s)
    (h : s.step a = some s') : (Accounted s' ↔ Harmless s a) ∧ (Harmless s a → Fits s') := by
  have hmax := step_max h
  have hb := hA.balance
  have hroom := hF.room
  have hbound := hF.bound
  have hle := s.admitted_le_reserved
  have hle' := s'.admitted_le_reserved
  -- a step of each kind keeps the balance exactly when its condition holds, and then the room
  have hkey : (s'.shared.cur = s'.shared.size + s'.reserved ↔ Harmless s a) ∧
      (Harmless s a → Fits s') := by
    cases step_sizeStep h with
    | quiet hC hc hs hr ha =>
      exact ⟨⟨fun _ ↦ hC, fun _ ↦ by omega⟩, fun _ ↦ ⟨by omega, by omega⟩⟩
    | reserve sz hC hc hs hr ha =>
      have hlt := sizeAdd_lt s.shared.cur sz
      refine ⟨?_, fun hH ↦ ⟨?_, by omega⟩⟩
      · rw [hC, ← sizeAdd_eq_iff]
        omega
      · have := sizeAdd_of_lt (hC.mp hH)
        split at ha <;> omega
    | giveBack sz hC hc hs hr ha =>
      have := sizeSub_of_add (a := s.shared.cur) (b := s'.shared.size + s'.reserved) (c := sz)
        (by omega) hbound
      exact ⟨⟨fun _ ↦ hC, fun _ ↦ by omega⟩, fun _ ↦ ⟨by omega, by omega⟩⟩
    | evict sz hC hc hs hr ha =>
      have := sizeSub_of_add (a := s.shared.cur) (b := s'.shared.size + s'.reserved) (c := sz)
        (by omega) hbound
      exact ⟨⟨fun _ ↦ hC, fun _ ↦ by omega⟩, fun _ ↦ ⟨by omega, by omega⟩⟩
    | insert sz hC hc hs hr ha =>
      exact ⟨⟨fun _ ↦ hC, fun _ ↦ by omega⟩, fun _ ↦ ⟨by omega, by omega⟩⟩
    | lost sz hC hc hs hr ha =>
      refine ⟨?_, fun hH ↦ ⟨by omega, by omega⟩⟩
      rw [hC]
      omega
    | flush hC hc hs hr ha =>
      refine ⟨?_, fun hH ↦ ?_⟩
      · rw [hC]
        omega
      · have := hC.mp hH
        exact ⟨by omega, by rw [hc]; decide⟩
  refine ⟨⟨fun hA' ↦ hkey.1.mp hA'.balance, fun hH ↦ ?_⟩, hkey.2⟩
  exact (hkey.2 hH).accounted (hkey.1.mpr hH)

/-- A new cache is in order. -/
theorem fits_init (max : Nat) : Fits (threads T H S max).init := by
  constructor
  · have h : State.admitted (threads T H S max).init = 0 := Finset.sum_eq_zero fun _ _ ↦ rfl
    rw [h]
    exact Nat.zero_le _
  · exact Nat.two_pow_pos 64

/-- For any number of threads and any interleaving: `cur` is the size of the cached entries
plus the reservations in progress in all states of the run, so within the maximum and free of
wraparound, if and only if every step of the run is harmless. -/
theorem accounted_iff_harmless (max : Nat) (as : List (Act T H S)) :
    (threads T H S max).AllStates Accounted (threads T H S max).init as ↔
      (threads T H S max).AllSteps Harmless (threads T H S max).init as := by
  apply Machine.allStates_iff_allSteps (J := Fits)
  · intro s a s' hA hF h
    exact (accounted_step hA hF h).1
  · intro s a s' hA hF hC h
    exact (accounted_step hA hF h).2 hC
  · apply (fits_init max).accounted
    rw [State.reserved_of_idle (fun _ ↦ rfl)]
    rfl
  · exact fits_init max

/-- Two threads put the same handle. Both find it absent and reserve; the one that comes second
stores nothing and keeps its reservation, so the counter stays four too high for ever. -/
theorem not_accounted_of_lost_race : ¬ ∀ (max : Nat), max < 2 ^ 63 →
    ∀ as : List (Act (Fin 2) Nat Unit),
    (threads (Fin 2) Nat Unit max).AllStates Accounted (threads (Fin 2) Nat Unit max).init as := by
  intro h
  have hrun : ∃ s, (threads (Fin 2) Nat Unit 10).run (threads (Fin 2) Nat Unit 10).init
      [.put 0 7 () 4, .put 1 7 () 4, .go 0, .go 1, .alloc 0 true, .alloc 1 true, .go 0, .go 1] =
        some s ∧ s.shared.cur = 8 ∧ s.shared.size = 4 ∧ ∀ t, s.pc t = .idle :=
    ⟨_, rfl, by decide, by decide, by decide⟩
  obtain ⟨s, hs, hcur, hsize, hidle⟩ := hrun
  have hq := (Machine.AllStates.last _ (h 10 (by decide) _) hs).quiet hidle
  rw [hcur, hsize] at hq
  exact absurd hq.1 (by decide)

end Filth.Cache
