import Filth.Cache.Calls
import Filth.Server.SideBySide

/-!
# Reading what has been written

All connections share one cache. A `PUT` or `POST` marks the entry it has made obsolete, but
`get` hands out a marked entry like any other, and an entry that nobody refers to stays. Two
fields of the site are for the proofs alone: when a path was last written, counted in entries
stored so far, and which entries were cached under a path when it was written.
-/

namespace Filth

open Base WorkM

variable {ω Ref : Type} (W : World ω Ref) (cfg : Config)

/-- What the cache asks of its surroundings: the element that `begin()` finds in the queue, and
memory for a new entry. -/
structure Upkeep (ω : Type) where
  first : List Str → Option Str
  room : ω → Bool × ω

variable (U : Upkeep ω)

/-- A callee that does not touch the cache. -/
def aside {α C : Type} (f : ω → α × ω) (x : C × ω) : α × C × ω := ((f x.2).1, x.1, (f x.2).2)

/-- The world `W` around a real cache. What the cache deletes is listed there. -/
def World.around : World (Cache Str Ref × ω) Ref where
  time := aside W.time
  get path x := ((x.1.get path).1, (x.1.get path).2, x.2)
  put path r sz x :=
    let (room, w) := U.room x.2
    ((x.1.put U.first room path r sz).1, (x.1.put U.first room path r sz).2, w)
  unget path x := (x.1.unget path, x.2)
  adviseEvict path x := (x.1.adviseEvict path, x.2)
  load r x := W.load r x.2
  store r e x := (x.1, W.store r e x.2)
  delete r x := (x.1, W.delete r x.2)
  mtime path := aside (W.mtime path)
  request path := aside (W.request path)
  dirtoHTML path := aside (W.dirtoHTML path)
  putorpost path body enc append := aside (W.putorpost path body enc append)
  unlink path := aside (W.unlink path)
  socket := aside W.socket
  getFlags fd := aside (W.getFlags fd)
  setFlags fd := aside (W.setFlags fd)
  connect fd path := aside (W.connect fd path)
  startClient fd hdrs body := aside (W.startClient fd hdrs body)
  malloc n := aside (W.malloc n)
  uncompress := W.uncompress
  mime := W.mime
  date := W.date
  indeterminate := W.indeterminate

/-- No callee takes a number away from an entry. -/
private theorem follows_of_moves {x y : Cache Str Ref × ω} (h : (W.around U).Moves x y) :
    Cache.Follows x.1 y.1 := by
  cases h with
  | get path => exact .getSection x.1 path
  | put path r sz => exact .put U.first (U.room x.2).1 x.1 path r sz
  | unget path => exact .unget x.1 path
  | adviseEvict path => exact .adviseEvict x.1 path
  | _ => exact .refl x.1

/-- All connections around one cache. -/
structure Site (ω Ref : Type) where
  world : Cache Str Ref × ω
  conns : Nat → Scene (Cache Str Ref × ω) Ref
  busy : Nat → Bool
  written : Str → Nat
  overwritten : List (Str × Nat)

/-- What happens at a site: a complete request arrives, its response has been written, a
connection is closed, a signal asks for a flush, or something changes outside. -/
inductive Event (ω : Type) where
  | request (i : Nat) (hdrs : Hdrs) (body : Str)
  | finish (i : Nat)
  | drop (i : Nat)
  | flush
  | outside (w : ω)

/-- The path that a request writes to, if its answer is `OK`. -/
def wroteTo (s : Scene ω Ref) (q : Request ω) : Option Str :=
  match Client.browseReq cfg { s.client with reqHdrs := q.hdrs } with
  | (.ok (), w) =>
    match (dispatch W cfg w.meth w.path q.body { s with client := w, world := q.world }).1 with
    | .error .ok => if w.meth.writes then some w.path else none
    | _ => none
  | (.error _, _) => none

/-- The path of a `GET` that is answered from the cache. -/
def answeredFrom (s : Scene ω Ref) (q : Request ω) : Option Str :=
  match Client.browseReq cfg { s.client with reqHdrs := q.hdrs } with
  | (.ok (), w) =>
    match (cacheGet W w.path { s with client := w, world := q.world }).1 with
    | .ok (some _) => if w.meth = .get then some w.path else none
    | _ => none
  | (.error _, _) => none

/-- The path of a `GET` that the cache may answer. -/
def asksFor (w : Client) : Option Str :=
  match Client.browseReq cfg w with
  | (.ok (), w) => if w.meth = .get ∧ ¬ w.clCacheControl.isset .noCache then some w.path else none
  | (.error _, _) => none

namespace Site

/-- Keep a record of a write: when it was, and what was cached then. -/
def record (s : Site ω Ref) : Option Str → Site ω Ref
  | none => s
  | some path =>
    { s with
      written := Function.update s.written path s.world.1.stored
      overwritten := ((s.world.1.find path).map fun e ↦ (path, e.id)).toList ++ s.overwritten }

/-- Connection `i` as it is now, in the world as it is now. -/
def conn (s : Site ω Ref) (i : Nat) : Scene (Cache Str Ref × ω) Ref :=
  { s.conns i with world := s.world }

/-- Connection `i` has become `t`. -/
def put (s : Site ω Ref) (i : Nat) (t : Scene (Cache Str Ref × ω) Ref) (busy : Bool) :
    Site ω Ref :=
  { s with
    world := t.world
    conns := Function.update s.conns i t
    busy := Function.update s.busy i busy }

/-- A site with an empty cache. -/
def new (max : Nat) (w : ω) : Site ω Ref :=
  { world := (.new max, w), conns := fun _ ↦ .new (.new max, w), busy := fun _ ↦ false
    written := fun _ ↦ 0, overwritten := [] }

/-- Requests are handled one at a time, on any connection that is waiting for one. -/
def step (s : Site ω Ref) : Event ω → Option (Site ω Ref)
  | .request i hdrs body =>
    if s.busy i || (s.conns i).client.deleteme then none
    else
      let q := { hdrs, body, world := s.world }
      let t := (serve (W.around U) cfg (s.conns i) q).2
      some ((s.record (wroteTo (W.around U) cfg (s.conns i) q)).put i t true)
  | .finish i => if s.busy i then some (s.put i (reset (W.around U) (wake (s.conn i))) false) else none
  | .drop i => some (s.put i (.new s.world) false)
  | .flush => some { s with world := (s.world.1.flush, s.world.2) }
  | .outside w => some { s with world := (s.world.1, w) }

end Site

/-- A site from its start. -/
def site (max : Nat) (w : ω) : Machine (Site ω Ref) (Event ω) where
  init := .new max w
  step := Site.step W cfg U

/-- A `GET` that is answered from the cache gets an entry that was stored after the last write
to its path. -/
def ReadsOwnWrites (s : Site ω Ref) : Event ω → Prop
  | .request i hdrs body =>
    ∀ path ∈ answeredFrom (W.around U) cfg (s.conns i) { hdrs, body, world := s.world },
      ∀ e ∈ s.world.1.find path, s.written path ≤ e.id
  | _ => True

/-- A `GET` that may be answered from the cache does not find an entry there that was cached
when its path was written. -/
def FindsNoneOverwritten (s : Site ω Ref) : Event ω → Prop
  | .request i hdrs _ =>
    ∀ path ∈ asksFor cfg { (s.conns i).client with reqHdrs := hdrs },
      ∀ e ∈ s.world.1.find path, (path, e.id) ∉ s.overwritten
  | _ => True

/-- The numbers of entries tell what was stored before a write from what was stored after. -/
structure Coherent (s : Site ω Ref) : Prop where
  written : ∀ path, s.written path ≤ s.world.1.stored
  stored : ∀ path e, s.world.1.find path = some e → e.id < s.world.1.stored
  cached : ∀ path e, s.world.1.find path = some e → e.id < s.written path →
    (path, e.id) ∈ s.overwritten
  overwritten : ∀ path n, (path, n) ∈ s.overwritten → n < s.written path

private theorem coherent_new (max : Nat) (w : ω) : Coherent (.new max w : Site ω Ref) where
  written _ := le_rfl
  stored _ _ he := by cases he
  cached _ _ he := by cases he
  overwritten _ _ h := by cases h

/-- A later cache is as coherent, whatever becomes of the connections. -/
theorem Coherent.follows {s s' : Site ω Ref} (hs : Coherent s)
    (hf : Cache.Follows s.world.1 s'.world.1) (hw : s'.written = s.written)
    (ho : s'.overwritten = s.overwritten) : Coherent s' where
  written path := by
    rw [hw]
    exact (hs.written path).trans hf.stored
  stored path e' he' := by
    rcases hf.entry path e' he' with ⟨e, he, hid⟩ | ⟨-, hhigh⟩
    · rw [← hid]
      exact (hs.stored path e he).trans_le hf.stored
    · exact hhigh
  cached path e' he' hlt := by
    rw [hw] at hlt
    rw [ho]
    rcases hf.entry path e' he' with ⟨e, he, hid⟩ | ⟨hlow, -⟩
    · rw [← hid] at hlt ⊢
      exact hs.cached path e he hlt
    · have hle := hs.written path
      omega
  overwritten path n h := by
    rw [ho] at h
    rw [hw]
    exact hs.overwritten path n h

/-- The record of a write fits the cache at the time of the write. -/
theorem Coherent.record {s : Site ω Ref} (hs : Coherent s) (o : Option Str) :
    Coherent (s.record o) := by
  cases o with
  | none => exact hs
  | some path =>
    refine ⟨?_, hs.stored, ?_, ?_⟩
    · intro a
      by_cases ha : a = path
      · subst ha
        simp [Site.record]
      · simpa [Site.record, ha] using hs.written a
    · intro a e he hlt
      by_cases ha : a = path
      · subst ha
        change s.world.1.find a = some e at he
        simp [Site.record, he]
      · simp only [Site.record, Function.update_of_ne ha] at hlt ⊢
        exact List.mem_append_right _ (hs.cached a e he hlt)
    · intro a n hmem
      simp only [Site.record, List.mem_append, Option.mem_toList, Option.map_eq_some_iff,
        Prod.mk.injEq] at hmem ⊢
      rcases hmem with ⟨e, he, rfl, rfl⟩ | hmem
      · rw [Function.update_self]
        exact hs.stored path e he
      · have hlt := hs.overwritten a n hmem
        by_cases ha : a = path
        · subst ha
          rw [Function.update_self]
          exact hlt.trans_le (hs.written a)
        · rw [Function.update_of_ne ha]
          exact hlt

private theorem coherent_step {s s' : Site ω Ref} {a : Event ω} (hs : Coherent s)
    (hstep : s.step W cfg U a = some s') : Coherent s' := by
  have hmoves (c : Cache Str Ref) : ∀ x y, (W.around U).Moves x y →
      Cache.Follows c x.1 → Cache.Follows c y.1 :=
    fun x y hxy hx ↦ hx.trans (follows_of_moves W U hxy)
  cases a with
  | request i hdrs body =>
    simp only [Site.step] at hstep
    split at hstep
    · cases hstep
    · cases hstep
      refine (hs.record _).follows ?_ rfl rfl
      rw [show (s.record _).world = s.world by unfold Site.record; split <;> rfl]
      exact serve_moves (W.around U) cfg (hmoves s.world.1) _ (.refl _)
  | finish i =>
    simp only [Site.step] at hstep
    split at hstep
    · cases hstep
      exact hs.follows (reset_moves (W.around U) (hmoves s.world.1) (.refl _)) rfl rfl
    · cases hstep
  | drop i =>
    cases hstep
    exact hs.follows (.refl _) rfl rfl
  | flush =>
    cases hstep
    exact hs.follows (.flush _) rfl rfl
  | outside w =>
    cases hstep
    exact hs.follows (.refl _) rfl rfl

/-- An entry is older than the last write to its path just when that write found it cached. -/
private theorem Coherent.lt_written_iff {s : Site ω Ref} (hs : Coherent s) {path : Str}
    {e : Stuff Ref} (he : s.world.1.find path = some e) :
    e.id < s.written path ↔ (path, e.id) ∈ s.overwritten :=
  ⟨hs.cached path e he, hs.overwritten path e.id⟩

/-- Only a request without `no-cache` is answered from the cache. -/
private theorem asksFor_of_answeredFrom {W : World ω Ref} {s : Scene ω Ref} {q : Request ω}
    {path : Str} (h : answeredFrom W cfg s q = some path) :
    asksFor cfg { s.client with reqHdrs := q.hdrs } = some path := by
  unfold answeredFrom at h
  unfold asksFor
  split at h
  · next w hw =>
    rw [hw]
    split at h
    · next hget =>
      split at h
      · next hm =>
        have hcache : ¬ w.clCacheControl.isset .noCache := by
          intro hset
          rw [cacheGet, isset_bind, if_pos hset] at hget
          cases hget
        cases h
        exact if_pos ⟨hm, hcache⟩
      · cases h
    · cases h
  · cases h

/-- A step goes wrong just when a `GET` accepts an entry that was cached at the write. -/
private theorem readsOwnWrites_iff {s : Site ω Ref} (hs : Coherent s) (i : Nat) (hdrs : Hdrs)
    (body : Str) :
    ReadsOwnWrites W cfg U s (.request i hdrs body) ↔
      ∀ path ∈ answeredFrom (W.around U) cfg (s.conns i) { hdrs, body, world := s.world },
        ∀ e ∈ s.world.1.find path, (path, e.id) ∉ s.overwritten := by
  refine forall₂_congr fun path _ ↦ forall₂_congr fun e he ↦ ?_
  rw [← hs.lt_written_iff he, not_lt]

/-- For any events at a site, in any world around it: if no `GET` finds an entry that was cached
when its path was written, then no `GET` is answered with an entry from before a write. -/
theorem readsOwnWrites_of_run (max : Nat) (w : ω) (as : List (Event ω))
    (h : (site W cfg U max w).AllSteps (FindsNoneOverwritten cfg) (site W cfg U max w).init as) :
    (site W cfg U max w).AllSteps (ReadsOwnWrites W cfg U) (site W cfg U max w).init as := by
  refine Machine.AllSteps.imp _ ?_ ?_ (coherent_new max w) h
  · intro s a s' hs _ hfinds
    cases a with
    | request i hdrs body =>
      rw [readsOwnWrites_iff W cfg U hs]
      intro path hpath
      exact hfinds path (asksFor_of_answeredFrom cfg hpath)
    | _ => trivial
  · intro s a s' hs hstep _
    exact coherent_step W cfg U hs hstep

instance decidableReadsOwnWrites (s : Site ω Ref) :
    ∀ a : Event ω, Decidable (ReadsOwnWrites W cfg U s a)
  | .request _ _ _ => inferInstanceAs (Decidable (∀ _ ∈ (_ : Option Str), ∀ _ ∈ (_ : Option (Stuff Ref)), _ ≤ _))
  | .finish _ | .drop _ | .flush | .outside _ => isTrue trivial

instance decidableFindsNoneOverwritten (s : Site ω Ref) :
    ∀ a : Event ω, Decidable (FindsNoneOverwritten cfg s a)
  | .request _ _ _ => inferInstanceAs (Decidable (∀ _ ∈ (_ : Option Str), ∀ _ ∈ (_ : Option (Stuff Ref)), _ ∉ _))
  | .finish _ | .drop _ | .flush | .outside _ => isTrue trivial

/-- A world with a file that can be read and written. -/
def readable : World Unit Unit :=
  { World.inert { CacheEntry.blank with expiresValue := 3600 } with
    request := fun _ _ ↦ (.ok (), ())
    putorpost := fun _ _ _ _ _ ↦ (none, ())
    malloc := fun _ _ ↦ (true, ())
    uncompress := fun _ _ ↦ some [] }

/-- Upkeep of a cache with room for everything. -/
def roomy : Upkeep Unit := { first := List.head?, room := fun _ ↦ (true, ()) }

/-- A request without headers. -/
def Event.plain (i : Nat) (reqln : String) : Event Unit := .request i (.ofReqln reqln) []

/-- An entry that is held while its path is written goes away with its last reference. -/
theorem readsOwnWrites_of_held :
    (site readable .lax roomy 100 ()).AllSteps (ReadsOwnWrites readable .lax roomy)
      (site readable .lax roomy 100 ()).init
      [.plain 0 "GET /a HTTP/1.1", .plain 1 "PUT /a HTTP/1.1", .finish 0, .finish 1,
       .plain 1 "GET /a HTTP/1.1"] :=
  readsOwnWrites_of_run readable .lax roomy 100 () _ (by decide +kernel)

/-- An entry that nobody refers to stays, and answers the next request. -/
theorem not_readsOwnWrites_of_idle : ¬ ∀ (max : Nat) (as : List (Event Unit)),
    (site readable .lax roomy max ()).AllSteps (ReadsOwnWrites readable .lax roomy)
      (site readable .lax roomy max ()).init as := by
  intro h
  exact absurd (h 100 [.plain 0 "GET /a HTTP/1.1", .finish 0, .plain 0 "PUT /a HTTP/1.1", .finish 0,
    .plain 0 "GET /a HTTP/1.1"]) (by decide +kernel)

end Filth
