import Filth.Cache.Counting
import Filth.Server.References

/-!
# References when works are destroyed

Any number of connections over one cache: of every work, what decides about its references, and
its calls on the cache section by section, as in `Filth.Cache.Threads`. References are given back
by `cache_get`, if the entry will not do, and by `reset`. `~HTTP_2616_Server_Work`,
`src/HTTP_2616_Server_Work.cpp:37–40`, gives back nothing, and a work is destroyed without a
`reset`: on a hangup, on a `SocketErr`, when its last response has been written, or with the work
map. Works are told apart by their names, and a name is not used again.
-/

namespace Filth

open Base Cache

/-- How far a work is with its request. -/
inductive Doing where
  /-- Not constructed yet. -/
  | absent
  /-- Reads a request, or waits for one. -/
  | reading
  /-- In `prepare_response`, past `browse_req`; line 54. -/
  | browsed
  /-- In `cache_get`, with an entry; line 242. -/
  | found
  /-- In `prepare_response`, the cache being of no help; lines 124–142. -/
  | missed
  /-- In `cache_put`; line 512. -/
  | storing
  /-- Has a response to write, or sleeps until it gets one. `looked` tells whether line 117 has
  been reached. -/
  | answering (looked : Bool)
  | destroyed
  deriving DecidableEq, Repr

/-- Of an `HTTP_2616_Server_Work`, what decides about its references. -/
structure Tenant (H : Type) where
  doing : Doing
  path : H
  respIsCached : Bool
  deriving DecidableEq, Repr

namespace Tenant

variable {H : Type}

/-- Constructed and not yet destroyed. -/
def Alive (w : Tenant H) : Prop := w.doing ≠ .absent ∧ w.doing ≠ .destroyed

instance (w : Tenant H) : Decidable w.Alive := inferInstanceAs (Decidable (_ ∧ _))

/-- The work has a reference that it has not given back. -/
def Holds (w : Tenant H) : Prop :=
  w.doing = .found ∨ w.doing = .answering true ∧ w.respIsCached = true

instance (w : Tenant H) : Decidable w.Holds := inferInstanceAs (Decidable (_ ∨ _))

/-- A holder is alive. -/
theorem Holds.alive {w : Tenant H} (h : w.Holds) : w.Alive := by
  rcases h with h | ⟨h, -⟩ <;> simp [Alive, h]

/-- The work after a request has been handled, which got as far as the lookup or did not. -/
def ofScene {ω Ref : Type} (s : Scene ω Ref) (looked : Bool) : Tenant Str :=
  { doing := .answering looked, path := s.client.path, respIsCached := s.respIsCached }

/-- Handling a request leaves a work with the references that its flag and its path say, if it
looked into the cache, and with none and the flag of before otherwise. -/
theorem ofScene_serve {ω Ref : Type} (W : World ω Ref) (cfg : Config) (s : Scene ω Ref)
    (q : Request ω) (hrefs : s.refs = []) :
    let w := ofScene (serve W cfg s q).2 (looksUp cfg { s.client with reqHdrs := q.hdrs })
    (serve W cfg s q).2.refs = (if w.Holds then [w.path] else []) ∧
      (w.doing = .answering false → w.respIsCached = s.respIsCached) := by
  intro w
  rcases serve_ledger W cfg s q hrefs with ⟨hlooks, hbal⟩ | ⟨hlooks, hnone, hflag⟩
  · rw [Balanced, resetUngets] at hbal
    simp [w, ofScene, Holds, hlooks, ← hbal]
  · simp [w, ofScene, Holds, hlooks, hnone, hflag]

end Tenant

/-- The handle of the `put` that a thread is inside of. -/
def Cache.Pc.storing {H S : Type} : Pc H S → Option H
  | .reserve h _ _ | .giveBack h _ _ | .pop h _ _ | .evict h _ _ _ | .alloc h _ _
  | .insert h _ _ => some h
  | _ => none

/-- The next section of a thread is the one in which its `put` stores the entry. -/
def Cache.State.stores {T H S : Type} [DecidableEq H] (s : State T H S) (p : T) : Bool :=
  match s.pc p with
  | .insert h x sz => (s.shared.insertNew h x sz).1
  | _ => false

/-- The cache, entered by works and by the thread that handles signals, and the works. -/
structure Works (T H S : Type) where
  cache : State (Option T) H S
  work : T → Tenant H

/-- What may happen next. Names of files, entries to store and what the allocator does are part
of it, and whether an entry or a response will do. -/
inductive WorksAct (T H S : Type) where
  /-- A connection is accepted, and its work constructed. -/
  | create (t : T)
  /-- A request has been read; `browse_req` leaves the path. -/
  | browse (t : T) (h : H)
  /-- `prepare_response` is left before the lookup, or waits for a socket; lines 54–110. -/
  | leave (t : T)
  /-- The file has been changed, so the cache is advised to evict the entry; lines 86, 101. -/
  | advise (t : T)
  /-- `cache_get` is not to look; line 242. -/
  | skip (t : T)
  | lookUp (t : T)
  /-- The entry will do, though it may be stale; lines 313–325. -/
  | accept (t : T) (fresh : Bool)
  /-- `cache_no`; line 328. -/
  | reject (t : T)
  /-- The response is not to be stored, or there is none but an error; lines 124–203, 495–510. -/
  | abstain (t : T)
  | put (t : T) (x : S) (sz : Nat)
  /-- The next section of a call on the cache. -/
  | pop (t : T) (victim : H) | alloc (t : T) (ok : Bool) | go (t : T)
  /-- The response has been written, and the work is reset for the next request. -/
  | reset (t : T)
  | destroy (t : T)
  /-- A signal has the cache flushed. -/
  | flush
  deriving DecidableEq, Repr

namespace Works

variable {T H S : Type} [DecidableEq T]

/-- A work changes. -/
def set (s : Works T H S) (t : T) (w : Tenant H) : Works T H S :=
  { s with work := Function.update s.work t w }

/-- `cache_put` returns when `put` does. -/
def settle (w : Tenant H) (stored returned : Bool) : Tenant H :=
  if w.doing = .storing ∧ returned = true then
    { w with doing := .answering true, respIsCached := stored }
  else w

/-- Inside of `put` nothing is settled. -/
private theorem settle_inside (w : Tenant H) (stored : Bool) : settle w stored false = w := by
  simp [settle]

/-- A work with a reference is not inside of `cache_put`. -/
private theorem settle_holds {w : Tenant H} (hw : w.Holds) (stored returned : Bool) :
    settle w stored returned = w := by
  rcases hw with hw | ⟨hw, -⟩ <;> simp [settle, hw]

private theorem alive_settle {w : Tenant H} (hw : w.Alive) (stored returned : Bool) :
    (settle w stored returned).Alive := by
  unfold settle
  split
  · simp [Tenant.Alive]
  · exact hw

variable [DecidableEq H]

/-- A reference that the work has to the entry under its path. -/
def reference (s : Works T H S) (t : T) : Option (Hold (Option T) H) :=
  s.cache.holds.find? fun r ↦ decide (r.thread = some t ∧ r.handle = (s.work t).path)

variable [Fintype T]

/-- A call on the cache by a work, or a section of it. -/
def call (s : Works T H S) (a : Cache.Act (Option T) H S) (t : T)
    (next : State (Option T) H S → Tenant H) : Option (Works T H S) :=
  (s.cache.step a).map fun cache ↦ { cache, work := Function.update s.work t (next cache) }

/-- The next section of a call, which may be that of `put`. -/
def goOn (s : Works T H S) (a : Cache.Act (Option T) H S) (t : T) : Option (Works T H S) :=
  s.call a t fun cache ↦ settle (s.work t) (s.cache.stores (some t)) (cache.pc (some t)).atRest

/-- `unget(path)`, whether or not the work has a reference. -/
def unget (s : Works T H S) (t : T) (w : Tenant H) : Option (Works T H S) :=
  match s.reference t with
  | some r => s.call (.unget (some t) (s.work t).path r.id) t fun _ ↦ w
  | none =>
    if (s.cache.pc (some t)).atRest then
      some { s.set t w with
        cache := s.cache.move (some t) (s.cache.shared.ungetSection (s.work t).path).2
          (if (s.cache.shared.ungetSection (s.work t).path).1 then .ungetRead (s.work t).path
            else .idle) }
    else none

/-- One step. A work goes on when its call on the cache has returned. -/
def step (s : Works T H S) : WorksAct T H S → Option (Works T H S)
  | .create t =>
    if (s.work t).doing = .absent then
      some (s.set t { s.work t with doing := .reading, respIsCached := false })
    else none
  | .browse t h =>
    if (s.work t).doing = .reading ∧ (s.cache.pc (some t)).atRest then
      some (s.set t { s.work t with doing := .browsed, path := h })
    else none
  | .leave t =>
    if (s.work t).doing = .browsed then
      some (s.set t { s.work t with doing := .answering false })
    else none
  | .advise t =>
    if (s.work t).doing = .browsed then
      s.call (.adviseEvict (some t) (s.work t).path) t fun _ ↦
        { s.work t with doing := .answering false }
    else none
  | .skip t =>
    if (s.work t).doing = .browsed then
      some (s.set t { s.work t with doing := .missed, respIsCached := false })
    else none
  | .lookUp t =>
    if (s.work t).doing = .browsed then
      s.call (.get (some t) (s.work t).path) t fun _ ↦
        if (s.cache.shared.find (s.work t).path).isSome then { s.work t with doing := .found }
        else { s.work t with doing := .missed, respIsCached := false }
    else none
  | .accept t fresh =>
    if (s.work t).doing = .found then
      let w := { s.work t with doing := .answering true, respIsCached := true }
      if fresh then some (s.set t w)
      else s.call (.adviseEvict (some t) (s.work t).path) t fun _ ↦ w
    else none
  | .reject t =>
    if (s.work t).doing = .found then
      s.unget t { s.work t with doing := .missed, respIsCached := false }
    else none
  | .abstain t =>
    if (s.work t).doing = .missed ∧ (s.cache.pc (some t)).atRest then
      some (s.set t { s.work t with doing := .answering true })
    else none
  | .put t x sz =>
    if (s.work t).doing = .missed then
      s.call (.put (some t) (s.work t).path x sz) t fun cache ↦
        settle { s.work t with doing := .storing } false (cache.pc (some t)).atRest
    else none
  | .pop t victim => s.goOn (.pop (some t) victim) t
  | .alloc t ok => s.goOn (.alloc (some t) ok) t
  | .go t => s.goOn (.go (some t)) t
  | .reset t =>
    match (s.work t).doing with
    | .answering _ =>
      if (s.work t).respIsCached then s.unget t { s.work t with doing := .reading }
      else some (s.set t { s.work t with doing := .reading })
    | _ => none
  | .destroy t =>
    match (s.work t).doing with
    | .reading | .answering _ =>
      if (s.cache.pc (some t)).atRest then
        some (s.set t { s.work t with doing := .destroyed })
      else none
    | _ => none
  | .flush => (s.cache.step (.flush none)).map fun cache ↦ { s with cache }

end Works

/-- Works over a new cache of the given capacity. -/
def tenancy (T H S : Type) [Fintype T] [DecidableEq T] [DecidableEq H] [Inhabited H] (max : Nat) :
    Machine (Works T H S) (WorksAct T H S) where
  init :=
    { cache := (threads (Option T) H S max).init
      work := fun _ ↦ { doing := .absent, path := default, respIsCached := false } }
  step := Works.step

namespace Works

variable {T H S : Type} [DecidableEq H]

/-- References are with works that are alive. When none is, no entry has a reference, and all of
them are queued to be evicted and can be. -/
structure Released (s : Works T H S) : Prop where
  held : ∀ r ∈ s.cache.holds, ∃ t, r.thread = some t ∧ (s.work t).Alive
  evictable : (∀ t, ¬ (s.work t).Alive) → ∀ h e, s.cache.shared.find h = some e →
    e.refcnt = 0 ∧ h ∈ s.cache.shared.toevict ∧ (s.cache.shared.evictHandle h).1 = true

/-- The entry under the path of a work, if there is one, is the one it has a reference to. -/
def Own (s : Works T H S) (t : T) : Prop :=
  ∀ e, s.cache.shared.find (s.work t).path = some e →
    ⟨some t, (s.work t).path, e.id⟩ ∈ s.cache.holds

/-- No work is destroyed that has a reference, and no reference is given back that has not been
obtained. -/
def Returns (s : Works T H S) : WorksAct T H S → Prop
  | .destroy t => ¬ (s.work t).Holds
  | .reject t => s.Own t
  | .reset t => (s.work t).respIsCached = true → s.Own t
  | _ => True

instance [DecidableEq T] (s : Works T H S) (t : T) : Decidable (s.Own t) :=
  inferInstanceAs (Decidable (∀ e ∈ s.cache.shared.find (s.work t).path,
    ⟨some t, (s.work t).path, e.id⟩ ∈ s.cache.holds))

instance [DecidableEq T] (s : Works T H S) : DecidablePred s.Returns
  | .destroy t => inferInstanceAs (Decidable (¬ (s.work t).Holds))
  | .reject t => inferInstanceAs (Decidable (s.Own t))
  | .reset t => inferInstanceAs (Decidable ((s.work t).respIsCached = true → s.Own t))
  | .create _ | .browse .. | .leave _ | .advise _ | .skip _ | .lookUp _ | .accept .. | .abstain _
  | .put .. | .pop .. | .alloc .. | .go _ | .flush => .isTrue trivial

/-- What a run keeps in which references are returned. -/
structure Sound (s : Works T H S) : Prop where
  counted : Counted s.cache.shared s.cache.holds
  queued : Unreferred s.cache
  holder : ∀ r ∈ s.cache.holds,
    ∃ t, r.thread = some t ∧ (s.work t).Holds ∧ (s.work t).path = r.handle
  once : (s.cache.holds.map Hold.thread).Nodup
  storing : ∀ t h, (s.cache.pc (some t)).storing = some h →
    (s.work t).doing = .storing ∧ (s.work t).path = h
  rest : ∀ p, (∀ t, p = some t → ¬ (s.work t).Alive) → (s.cache.pc p).atRest = true

/-- Where references are with their holders and counted, they are released with the works. -/
private theorem Sound.released {s : Works T H S} (hs : s.Sound) : s.Released := by
  constructor
  case held =>
    intro r hr
    obtain ⟨t, ht, hholds, -⟩ := hs.holder r hr
    exact ⟨t, ht, hholds.alive⟩
  case evictable =>
    intro hgone h e he
    have hnone : s.cache.holds = [] := by
      apply List.eq_nil_iff_forall_not_mem.mpr
      intro r hr
      obtain ⟨t, -, hholds, -⟩ := hs.holder r hr
      exact hgone t hholds.alive
    have hfree : refsTo s.cache.holds h e.id = 0 := by
      rw [hnone]
      exact refsTo_nil h e.id
    have hzero : e.refcnt = 0 := by
      rw [hs.counted.count h e he, hfree]
      rfl
    refine ⟨hzero, ?_, by simp [evictHandle, he, hzero]⟩
    rcases hs.queued h e he hfree with hin | ⟨p, hminds⟩
    · exact hin
    · exact absurd hminds (Pc.not_minds_of_atRest (hs.rest p fun t _ ↦ hgone t) h)

/-- The references of a thread are those of its work. -/
theorem Sound.mine {s : Works T H S} (hs : s.Sound) {t : T} {r : Hold (Option T) H}
    (hr : r ∈ s.cache.holds) (hrt : r.thread = some t) :
    (s.work t).Holds ∧ (s.work t).path = r.handle := by
  obtain ⟨u, hu, hholds⟩ := hs.holder r hr
  cases hrt.symm.trans hu
  exact hholds

/-- What may happen to a work while no reference is taken or given back. -/
theorem Sound.kept {s : Works T H S} (hs : s.Sound) {t : T} {w : Tenant H}
    (hholds : (s.work t).Holds → w.Holds ∧ w.path = (s.work t).path) :
    ∀ r ∈ s.cache.holds, r ∈ s.cache.holds ∧ r.thread ≠ some t ∨
      r.thread = some t ∧ w.Holds ∧ w.path = r.handle := by
  intro r hr
  by_cases hrt : r.thread = some t
  · obtain ⟨hw, hpath⟩ := hs.mine hr hrt
    exact .inr ⟨hrt, (hholds hw).1, (hholds hw).2.trans hpath⟩
  · exact .inl ⟨hr, hrt⟩

/-- A step of one work, which may be inside of the cache. -/
theorem Sound.of_work {s s' : Works T H S} (hs : s.Sound) (t : T)
    (hcounted : Counted s'.cache.shared s'.cache.holds) (hqueued : Unreferred s'.cache)
    (hwork : ∀ u, u ≠ t → s'.work u = s.work u)
    (hpc : ∀ p, p ≠ some t → s'.cache.pc p = s.cache.pc p)
    (hholder : ∀ r ∈ s'.cache.holds, r ∈ s.cache.holds ∧ r.thread ≠ some t ∨
      r.thread = some t ∧ (s'.work t).Holds ∧ (s'.work t).path = r.handle)
    (honce : (s'.cache.holds.map Hold.thread).Nodup)
    (hstoring : ∀ h, (s'.cache.pc (some t)).storing = some h →
      (s'.work t).doing = .storing ∧ (s'.work t).path = h)
    (hrest : ¬ (s'.work t).Alive → (s'.cache.pc (some t)).atRest = true) : s'.Sound := by
  constructor
  case counted => exact hcounted
  case queued => exact hqueued
  case once => exact honce
  case holder =>
    intro r hr
    rcases hholder r hr with ⟨hr, hne⟩ | hmine
    · obtain ⟨u, hu, hholds⟩ := hs.holder r hr
      have hut : u ≠ t := by
        rintro rfl
        exact hne hu
      rw [← hwork u hut] at hholds
      exact ⟨u, hu, hholds⟩
    · exact ⟨t, hmine⟩
  case storing =>
    intro u h hu
    by_cases hut : u = t
    · subst hut
      exact hstoring h hu
    · rw [hpc _ (by simpa using hut)] at hu
      rw [hwork u hut]
      exact hs.storing u h hu
  case rest =>
    intro p hp
    by_cases hpt : p = some t
    · subst hpt
      exact hrest (hp t rfl)
    · rw [hpc p hpt]
      apply hs.rest
      rintro u rfl
      rw [← hwork u (by simpa using hpt)]
      exact hp u rfl

variable [DecidableEq T]

/-- A step of a work outside of the cache. -/
theorem Sound.set {s : Works T H S} (hs : s.Sound) {t : T} {w : Tenant H}
    (hdoing : (s.work t).doing ≠ .storing)
    (hholds : (s.work t).Holds → w.Holds ∧ w.path = (s.work t).path)
    (hrest : ¬ w.Alive → (s.cache.pc (some t)).atRest = true) : (s.set t w).Sound := by
  have hself : (s.set t w).work t = w := Function.update_self _ _ _
  refine hs.of_work t hs.counted hs.queued (fun u hut ↦ Function.update_of_ne hut _ _)
    (fun _ _ ↦ rfl) ?_ hs.once (fun h hh ↦ absurd (hs.storing t h hh).1 hdoing) (by rwa [hself])
  rw [hself]
  exact hs.kept hholds

variable [Fintype T]

/-- A call of a work, or a section of one. -/
theorem Sound.of_call {s : Works T H S} (hs : s.Sound) {a : Cache.Act (Option T) H S} {t : T}
    {cache : State (Option T) H S} {w : Tenant H} (hstep : s.cache.step a = some cache)
    (hthread : a.thread = some t) (hown : UngetsOwn s.cache a)
    (hholder : ∀ r ∈ cache.holds, r ∈ s.cache.holds ∧ r.thread ≠ some t ∨
      r.thread = some t ∧ w.Holds ∧ w.path = r.handle)
    (honce : (cache.holds.map Hold.thread).Nodup)
    (hstoring : ∀ h, (cache.pc (some t)).storing = some h → w.doing = .storing ∧ w.path = h)
    (hrest : ¬ w.Alive → (cache.pc (some t)).atRest = true) :
    ({ cache, work := Function.update s.work t w } : Works T H S).Sound := by
  have hself : Function.update s.work t w t = w := Function.update_self _ _ _
  have hcounted := counted_step hs.counted hown hstep
  refine hs.of_work t hcounted (unreferred_step hcounted hs.queued hstep)
    (fun u hut ↦ Function.update_of_ne hut _ _) ?_ ?_ honce ?_ ?_
  · intro p hp
    apply State.pc_step_of_ne hstep
    rwa [hthread]
  · simpa only [hself] using hholder
  · simpa only [hself] using hstoring
  · simpa only [hself] using hrest

/-- Advising an eviction concerns no reference. -/
theorem Sound.advise {s s' : Works T H S} (hs : s.Sound) {t : T} {k : H} {w : Tenant H}
    (h : s.call (.adviseEvict (some t) k) t (fun _ ↦ w) = some s')
    (hholds : (s.work t).Holds → w.Holds ∧ w.path = (s.work t).path) (hw : w.Alive) :
    s'.Sound := by
  obtain ⟨cache, hstep, rfl⟩ := Option.map_eq_some_iff.mp h
  refine hs.of_call hstep rfl trivial ?_ ?_ ?_ (absurd hw)
  all_goals cases State.step_moves hstep
  · exact hs.kept hholds
  · exact hs.once
  · next hp =>
    intro k hk
    change (s.cache.pc (some t)).storing = some k at hk
    rw [hp] at hk
    cases hk

/-- A lookup takes a reference just when it finds something. -/
theorem Sound.lookUp {s s' : Works T H S} (hs : s.Sound) {t : T}
    (h : s.step (.lookUp t) = some s') : s'.Sound := by
  simp only [step] at h
  split at h
  · next hdoing =>
    obtain ⟨cache, hstep, rfl⟩ := Option.map_eq_some_iff.mp h
    have hfree (r : Hold (Option T) H) (hr : r ∈ s.cache.holds) : r.thread ≠ some t := by
      intro hrt
      have := (hs.mine hr hrt).1
      simp [Tenant.Holds, hdoing] at this
    have hidle : cache.pc (some t) = .idle := by
      cases State.step_moves hstep with
      | get hp => exact hp
    have hmiss (hfind : s.cache.shared.find (s.work t).path = none) :
        cache.holds = s.cache.holds := by
      cases State.step_moves hstep
      dsimp only [State.move]
      rw [hfind]
    have hhit {e : Stuff S} (hfind : s.cache.shared.find (s.work t).path = some e) :
        cache.holds = ⟨some t, (s.work t).path, e.id⟩ :: s.cache.holds := by
      cases State.step_moves hstep
      dsimp only [State.move]
      rw [hfind]
    refine hs.of_call hstep rfl trivial ?_ ?_ (by simp [hidle, Pc.storing])
      (by simp [hidle, Pc.atRest])
    · intro r hr
      cases hfind : s.cache.shared.find (s.work t).path with
      | none =>
        rw [hmiss hfind] at hr
        exact .inl ⟨hr, hfree r hr⟩
      | some e =>
        rw [hhit hfind] at hr
        rcases List.mem_cons.mp hr with rfl | hr
        · exact .inr ⟨rfl, .inl rfl, rfl⟩
        · exact .inl ⟨hr, hfree r hr⟩
    · cases hfind : s.cache.shared.find (s.work t).path with
      | none =>
        rw [hmiss hfind]
        exact hs.once
      | some e =>
        rw [hhit hfind, List.map_cons, List.nodup_cons]
        refine ⟨fun hmem ↦ ?_, hs.once⟩
        obtain ⟨r, hr, hrt⟩ := List.mem_map.mp hmem
        exact hfree r hr hrt
  · cases h

/-- `cache_put` begins, or is over at once. -/
theorem Sound.put {s s' : Works T H S} (hs : s.Sound) {t : T} {x : S} {sz : Nat}
    (h : s.step (.put t x sz) = some s') : s'.Sound := by
  simp only [step] at h
  split at h
  · next hdoing =>
    obtain ⟨cache, hstep, rfl⟩ := Option.map_eq_some_iff.mp h
    have hfree : ¬ (s.work t).Holds := by simp [Tenant.Holds, hdoing]
    cases State.step_moves hstep with
    | putRefused hp =>
      refine hs.of_call hstep rfl trivial (hs.kept fun hw ↦ absurd hw hfree) hs.once ?_ ?_
      · simp [hp, Pc.storing]
      · simp [hp, Pc.atRest]
    | put hp =>
      refine hs.of_call hstep rfl trivial (hs.kept fun hw ↦ absurd hw hfree) hs.once ?_ ?_
      · intro k hk
        simp only [State.move, Function.update_self, Pc.storing, Option.some.injEq] at hk
        subst hk
        simp [settle, State.move, Pc.atRest]
      · simp [settle, State.move, Pc.atRest, Tenant.Alive]
  · cases h

end Works

/-- What the next section of a call by a thread is to references: of no concern, or the one in
which `put` stores the entry. -/
inductive Cache.State.Onward {T H S : Type} [DecidableEq H] (s : State T H S) (p : T)
    (s' : State T H S) : Prop where
  | within (hbusy : (s.pc p).atRest = false) (hst : s.stores p = false) (hh : s'.holds = s.holds)
      (hp : (s'.pc p).storing = none ∨ (s'.pc p).storing = (s.pc p).storing) : Onward s p s'
  | stored {h : H} (hbusy : (s.pc p).storing = some h) (hst : s.stores p = true)
      (hh : s'.holds = ⟨p, h, s.shared.stored⟩ :: s.holds) (hp : s'.pc p = .idle) : Onward s p s'

/-- Threads go on in one of these ways. -/
private theorem Cache.State.step_onward {T H S : Type} [DecidableEq T] [DecidableEq H] [Fintype T]
    {s s' : State T H S} {a : Cache.Act T H S} {p : T} (h : s.step a = some s')
    (ha : a = .go p ∨ (∃ v, a = .pop p v) ∨ ∃ ok, a = .alloc p ok) : s.Onward p s' := by
  cases State.step_moves h with
  | get | unget | putRefused | put | adviseEvict | flush => simp at ha
  | @insert t k x sz hp hw =>
    obtain rfl : t = p := by simpa using ha
    cases hst : (s.shared.insertNew k x sz).1 with
    | true =>
      refine .stored (h := k) (by rw [hp]; rfl) (by simp [stores, hp, hst]) (by simp) ?_
      simp [State.move]
    | false =>
      refine .within (by rw [hp]; rfl) (by simp [stores, hp, hst]) (by simp) ?_
      simp [State.move, Pc.storing]
  | reserve hp | giveBack hp | popEmpty hp | pop hp | evict hp | alloc hp | giveUp hp | ungetRead hp
  | ungetEvict hp | enq hp =>
    simp at ha
    subst ha
    refine .within (by rw [hp]; rfl) (by simp [stores, hp]) rfl ?_
    simp only [State.move, Function.update_self, hp, apply_ite Pc.storing]
    simp [Pc.storing]

namespace Works

variable {T H S : Type} [DecidableEq T] [DecidableEq H] [Fintype T]

/-- A work that is in the middle of a call is alive, and goes on with it. -/
theorem Sound.goOn {s s' : Works T H S} (hs : s.Sound) {t : T} {a : Cache.Act (Option T) H S}
    (ha : a = .go (some t) ∨ (∃ v, a = .pop (some t) v) ∨ ∃ ok, a = .alloc (some t) ok)
    (h : s.goOn a t = some s') : s'.Sound := by
  obtain ⟨cache, hstep, rfl⟩ := Option.map_eq_some_iff.mp h
  have hthread : a.thread = some t := by
    rcases ha with rfl | ⟨v, rfl⟩ | ⟨ok, rfl⟩ <;> rfl
  have hown : UngetsOwn s.cache a := by
    rcases ha with rfl | ⟨v, rfl⟩ | ⟨ok, rfl⟩ <;> trivial
  cases State.step_onward hstep ha with
  | within hbusy hst hh hp =>
    have halive : (s.work t).Alive := by
      by_contra hgone
      have hrest := hs.rest (some t) (by rintro u ⟨⟩; exact hgone)
      rw [hbusy] at hrest
      cases hrest
    rw [hst]
    refine hs.of_call hstep hthread hown ?_ (by rw [hh]; exact hs.once) ?_ ?_
    · rw [hh]
      apply hs.kept
      intro hw
      change (settle _ _ _).Holds ∧ (settle _ _ _).path = _
      rw [settle_holds hw]
      exact ⟨hw, rfl⟩
    · intro k hk
      have hbefore : (s.cache.pc (some t)).storing = some k := by
        rcases hp with hp | hp
        · rw [hp] at hk
          cases hk
        · rwa [← hp]
      have hinside : (cache.pc (some t)).atRest = false := by
        cases hc : cache.pc (some t) with
        | idle => rw [hc] at hk; cases hk
        | _ => rfl
      change (settle _ _ _).doing = _ ∧ (settle _ _ _).path = _
      rw [hinside, settle_inside]
      exact hs.storing t k hbefore
    · exact absurd (alive_settle halive _ _)
  | @stored k hbusy hst hh hp =>
    obtain ⟨hdoing, hpath⟩ := hs.storing t k hbusy
    have hw : settle (s.work t) (s.cache.stores (some t)) (cache.pc (some t)).atRest =
        { s.work t with doing := .answering true, respIsCached := true } := by
      simp [settle, hdoing, hst, hp, Pc.atRest]
    beta_reduce
    rw [hw]
    have hfree (r : Hold (Option T) H) (hr : r ∈ s.cache.holds) : r.thread ≠ some t := by
      intro hrt
      have := (hs.mine hr hrt).1
      simp [Tenant.Holds, hdoing] at this
    refine hs.of_call hstep hthread hown ?_ ?_ (by simp [hp, Pc.storing]) (by simp [hp, Pc.atRest])
    · intro r hr
      rw [hh] at hr
      rcases List.mem_cons.mp hr with rfl | hr
      · exact .inr ⟨rfl, .inr ⟨rfl, rfl⟩, hpath⟩
      · exact .inl ⟨hr, hfree r hr⟩
    · rw [hh, List.map_cons, List.nodup_cons]
      refine ⟨fun hmem ↦ ?_, hs.once⟩
      obtain ⟨r, hr, hrt⟩ := List.mem_map.mp hmem
      exact hfree r hr hrt

/-- A work that gives back what it has got, or nothing, is left without references. -/
theorem Sound.unget {s s' : Works T H S} (hs : s.Sound) {t : T} {w : Tenant H} (hown : s.Own t)
    (h : s.unget t w = some s') (hw : w.Alive) : s'.Sound := by
  unfold Works.unget at h
  split at h
  · next r href =>
    obtain ⟨cache, hstep, rfl⟩ := Option.map_eq_some_iff.mp h
    have hr : r ∈ s.cache.holds := List.mem_of_find?_eq_some href
    have hrt : r.thread = some t ∧ r.handle = (s.work t).path := by
      simpa using List.find?_some href
    -- no two references are of one thread
    have hsame (q : Hold (Option T) H) (hq : q ∈ s.cache.holds) (hqt : q.thread = some t) :
        q = r := List.inj_on_of_nodup_map hs.once hq hr (hqt.trans hrt.1.symm)
    have hdup : s.cache.holds.Nodup := hs.once.of_map
    have hgive : UngetsOwn s.cache (.unget (some t) (s.work t).path r.id) := by
      intro e he
      exact congrArg Hold.id (hsame _ (hown e he) rfl)
    have hfact : cache.holds = s.cache.holds.erase r ∧ (cache.pc (some t)).storing = none := by
      cases State.step_moves hstep with
      | unget hp hm =>
        refine ⟨congrArg _ (hsame _ hm rfl), ?_⟩
        simp only [State.move, Function.update_self, apply_ite Pc.storing]
        simp [Pc.storing]
    obtain ⟨hh, hst⟩ := hfact
    refine hs.of_call hstep rfl hgive ?_ ?_ (by simp [hst]) (absurd hw)
    · intro q hq
      rw [hh, hdup.mem_erase_iff] at hq
      exact .inl ⟨hq.2, fun hqt ↦ hq.1 (hsame q hq.2 hqt)⟩
    · rw [hh]
      exact hs.once.sublist (List.erase_sublist.map _)
  · next href =>
    split at h
    · next hrest =>
      cases h
      have hnone : s.cache.shared.find (s.work t).path = none := by
        cases hfind : s.cache.shared.find (s.work t).path with
        | none => rfl
        | some e =>
          have := List.find?_eq_none.mp href _ (hown e hfind)
          simp at this
      -- so there is nothing to count
      have hfind (a : H) : (s.cache.shared.ungetSection (s.work t).path).2.find a =
          s.cache.shared.find a := by
        rw [find_ungetSection, hnone]
        split
        · next ha => rw [ha, hnone]; rfl
        · rfl
      have hother (p : Option T) {c : Pc H S} (hp : p ≠ some t) :
          Function.update s.cache.pc (some t) c p = s.cache.pc p := Function.update_of_ne hp _ _
      refine hs.of_work t ?_ ?_ (fun u hut ↦ Function.update_of_ne hut _ _) (fun p ↦ hother p)
        ?_ hs.once ?_ ?_
      · exact hs.counted.fewer (fun a e he ↦ (hfind a).symm.trans he) rfl
      · exact hs.queued.of_quiet (some t) (fun p ↦ hother p)
          (Pc.not_minds_of_atRest hrest) rfl
          (fun a e he hr ↦ ⟨e, (hfind a).symm.trans he, hr⟩)
      · intro q hq
        refine .inl ⟨hq, fun hqt ↦ ?_⟩
        have := List.find?_eq_none.mp href q hq
        simp [hqt, (hs.mine hq hqt).2] at this
      · intro k hk
        simp only [State.move, Function.update_self, apply_ite Pc.storing] at hk
        simp [Pc.storing] at hk
      · rw [show ({ s.set t w with cache := _ } : Works T H S).work t = w from
          Function.update_self _ _ _]
        exact absurd hw
    · cases h

/-- A flush leaves the references with their works, and no entry to count. -/
theorem Sound.flush {s s' : Works T H S} (hs : s.Sound) (h : s.step .flush = some s') :
    s'.Sound := by
  obtain ⟨cache, hstep, rfl⟩ := Option.map_eq_some_iff.mp h
  have hcounted := counted_step hs.counted (a := .flush none) trivial hstep
  have hqueued := unreferred_step hcounted hs.queued hstep
  cases State.step_moves hstep
  exact ⟨hcounted, hqueued, hs.holder, hs.once, hs.storing, hs.rest⟩

/-- As long as references are returned, everything is kept. -/
theorem Sound.step {s s' : Works T H S} {a : WorksAct T H S} (hs : s.Sound) (ha : s.Returns a)
    (h : s.step a = some s') : s'.Sound := by
  cases a with
  | create t | browse t _ | leave t | skip t | abstain t =>
    simp only [Works.step] at h
    split at h
    · next hdoing =>
      cases h
      refine hs.set (by simp [hdoing]) (fun hholds ↦ ?_) (absurd (by simp [Tenant.Alive]))
      simp [Tenant.Holds, hdoing] at hholds
    · cases h
  | advise t =>
    simp only [Works.step] at h
    split at h
    · next hdoing =>
      refine hs.advise h (fun hholds ↦ ?_) (by simp [Tenant.Alive])
      simp [Tenant.Holds, hdoing] at hholds
    · cases h
  | lookUp t => exact hs.lookUp h
  | put t x sz => exact hs.put h
  | accept t fresh =>
    simp only [Works.step] at h
    split at h
    · next hdoing =>
      split at h
      · cases h
        exact hs.set (by simp [hdoing]) (fun _ ↦ ⟨.inr ⟨rfl, rfl⟩, rfl⟩)
          (absurd (by simp [Tenant.Alive]))
      · exact hs.advise h (fun _ ↦ ⟨.inr ⟨rfl, rfl⟩, rfl⟩) (by simp [Tenant.Alive])
    · cases h
  | reject t =>
    simp only [Works.step] at h
    split at h
    · exact hs.unget ha h (by simp [Tenant.Alive])
    · cases h
  | pop t v => exact hs.goOn (.inr (.inl ⟨v, rfl⟩)) h
  | alloc t ok => exact hs.goOn (.inr (.inr ⟨ok, rfl⟩)) h
  | go t => exact hs.goOn (.inl rfl) h
  | reset t =>
    simp only [Works.step] at h
    split at h
    · next looked hdoing =>
      split at h
      · next hcached => exact hs.unget (ha hcached) h (by simp [Tenant.Alive])
      · next hcached =>
        cases h
        refine hs.set (by simp [hdoing]) (fun hholds ↦ ?_) (absurd (by simp [Tenant.Alive]))
        simp [Tenant.Holds, hdoing, hcached] at hholds
    · cases h
  | destroy t =>
    simp only [Works.step] at h
    split at h
    · next hdoing =>
      split at h
      · next hrest =>
        cases h
        exact hs.set (by simp [hdoing]) (fun hholds ↦ absurd hholds ha) fun _ ↦ hrest
      · cases h
    · next hdoing =>
      split at h
      · next hrest =>
        cases h
        exact hs.set (by simp [hdoing]) (fun hholds ↦ absurd hholds ha) fun _ ↦ hrest
      · cases h
    · cases h
  | flush => exact hs.flush h

/-- Without works nothing is referred to. -/
theorem sound_init [Inhabited H] (max : Nat) : (tenancy T H S max).init.Sound :=
  ⟨counted_new max, attended_new _ max, nofun, List.nodup_nil, nofun, fun _ _ ↦ rfl⟩

/-- For any number of connections, whatever they do and in whatever order: as long as no work is
destroyed with a reference that it has not given back, and none gives back what it has not
obtained, references are with works that are alive, and once none is every entry is without
references and can be evicted. -/
theorem released_of_returns [Inhabited H] (max : Nat) (acts : List (WorksAct T H S))
    (h : (tenancy T H S max).AllSteps Returns (tenancy T H S max).init acts) :
    (tenancy T H S max).AllStates Released (tenancy T H S max).init acts :=
  (h.allStates _ (fun _ _ _ hs ha hstep ↦ hs.step ha hstep) (sound_init max)).imp _
    fun _ hs ↦ hs.released

/-- A work that stores what it has read, writes its response, is reset and is destroyed. -/
theorem released_of_returns_one :
    (tenancy Unit Nat Unit 10).AllStates Released (tenancy Unit Nat Unit 10).init
      [.create (), .browse () 7, .lookUp (), .put () () 4, .go (), .alloc () true, .go (), .reset (),
        .go (), .go (), .destroy ()] :=
  released_of_returns 10 _ (by decide)

/-- A work that is destroyed before it has written its response: the entry keeps its reference. -/
theorem not_released_hangup : ¬ ∀ (max : Nat) (acts : List (WorksAct Unit Nat Unit)),
    (tenancy Unit Nat Unit max).AllStates Released (tenancy Unit Nat Unit max).init acts := by
  intro h
  obtain ⟨s, hrun, hgone, e, he, hcount⟩ : ∃ s,
      (tenancy Unit Nat Unit 10).run (tenancy Unit Nat Unit 10).init [.create (), .browse () 7,
        .lookUp (), .put () () 4, .go (), .alloc () true, .go (), .destroy ()] = some s ∧
      (∀ t, ¬ (s.work t).Alive) ∧ ∃ e, s.cache.shared.find 7 = some e ∧ e.refcnt = 1 :=
    ⟨_, rfl, by decide, _, rfl, by decide⟩
  have hlast := Machine.AllStates.last _ (h 10 _) hrun
  have hzero := (hlast.evictable hgone 7 e he).1
  omega

end Works

end Filth
