import Filth.Base.Machine
import Filth.Http.CacheEntry

/-!
# Requests that share a cache entry

Once `prepare_response` has an entry, a request answers from it in a few operations, each
atomic by the entry's lock (`src/HTTP_2616_Server_Work.cpp:205–231`). A manipulator is pushed
in one section and consumed in another, so in between it is up for grabs: whoever prints next
gets it. The headers describe the bodies precisely when no request pushes or prints while
another one is between its own push and its own print.
-/

namespace Filth.Sharing

open Base

variable {R : Type}

/-- How `prepare_response` tells requests apart: by the method, then by the coding that the
client accepts. -/
inductive Kind where
  | head | gzip | identity
  deriving DecidableEq, Repr

/-- The operations of a request on the entry, `src/HTTP_CacheEntry.cpp:33–95`. -/
inductive Op where
  | push (m : Manip) | choose | print
  deriving DecidableEq, Repr

/-- What is sent after the headers: nothing, the stored bytes, or the bytes that
`gzip::uncompress` makes of them. -/
inductive Body where
  | empty | cached | uncompressed
  deriving DecidableEq, Repr

/-- The operations in program order, `src/HTTP_2616_Server_Work.cpp:205–231`. -/
def Kind.program : Kind → List Op
  | .head => [.push .asHead, .choose, .print]
  | .gzip => [.choose, .print]
  | .identity => [.choose, .push .asIdentity, .print]

/-- The body that a request chooses. -/
def Kind.body : Kind → Body
  | .head => .empty
  | .gzip => .cached
  | .identity => .uncompressed

/-- Size of a body. -/
def Body.size (c : CacheEntry) : Body → Nat
  | .empty => 0
  | .cached => c.szincache
  | .uncompressed => c.szondisk

/-- Coding of a body; an empty one has none. -/
def Body.coding (c : CacheEntry) : Body → Option ContentCoding
  | .empty => none
  | .cached => some c.enc
  | .uncompressed => some .identity

/-- The manipulator that a request pushes. -/
def Kind.manip : Kind → Option Manip
  | .head => some .asHead
  | .gzip => none
  | .identity => some .asIdentity

/-- A request: the operations it still has to do, the body chosen, the headers printed. -/
structure Request where
  kind : Kind
  todo : List Op
  body : Body
  block : Option HeaderBlock
  deriving DecidableEq, Repr

/-- A request that has the entry and has done nothing with it yet. -/
def Request.new (k : Kind) : Request :=
  { kind := k, todo := k.program, body := .empty, block := none }

/-- The entry and the requests answered from it. -/
structure State (R : Type) where
  entry : CacheEntry
  req : R → Request

/-- A request goes on, or gives up because `malloc` or `gzip::uncompress` failed. -/
inductive Act (R : Type) where
  | go (r : R) | oops (r : R)
  deriving DecidableEq, Repr

/-- The printed headers describe the body. -/
def Describes (c : CacheEntry) (b : HeaderBlock) (body : Body) : Prop :=
  b.contentLength = body.size c ∧ ∀ e ∈ body.coding c, b.contentEncoding = e

/-- Every response printed so far describes its body. -/
def Described (s : State R) : Prop :=
  ∀ r, ∀ b ∈ (s.req r).block, Describes s.entry b (s.req r).body

/-- A request has pushed the manipulator and not printed yet. -/
def InFlight (q : Request) (m : Manip) : Prop :=
  q.kind.manip = some m ∧ .print ∈ q.todo ∧ .push m ∉ q.todo

instance (q : Request) (m : Manip) : Decidable (InFlight q m) :=
  inferInstanceAs (Decidable (_ ∧ _ ∧ _))

/-- The flag that a manipulator sets. -/
def flag (c : CacheEntry) : Manip → Bool
  | .asHead => c.omitBody
  | .asIdentity => c.asifUncompressed

variable [DecidableEq R]

/-- Replace one request. -/
def State.put (s : State R) (r : R) (q : Request) : State R :=
  { s with req := Function.update s.req r q }

@[simp] theorem State.put_self (s : State R) (r : R) (q : Request) : (s.put r q).req r = q :=
  Function.update_self ..

@[simp] theorem State.put_of_ne (s : State R) {p r : R} (h : p ≠ r) (q : Request) :
    (s.put r q).req p = s.req p :=
  Function.update_of_ne h ..

@[simp] theorem State.put_entry (s : State R) (r : R) (q : Request) :
    (s.put r q).entry = s.entry := rfl

/-- One operation of one request, `src/HTTP_CacheEntry.cpp:33–95`. -/
def State.step (s : State R) : Act R → Option (State R)
  | .go r => match (s.req r).todo with
    | [] => none
    | .push m :: rest =>
      some ({ s with entry := s.entry.pushManip m }.put r { s.req r with todo := rest })
    | .choose :: rest =>
      some (s.put r { s.req r with todo := rest, body := (s.req r).kind.body })
    | .print :: rest =>
      some ({ s with entry := s.entry.print.2 }.put r
        { s.req r with todo := rest, block := some s.entry.print.1 })
  | .oops r =>
    if (s.req r).todo = Kind.identity.program then some (s.put r { s.req r with todo := [] })
    else none

/-- Requests of the given kinds that share an entry whose flags are clear. -/
def requests (kind : R → Kind) (c : CacheEntry) : Machine (State R) (Act R) where
  init :=
    { entry := { c with omitBody := false, asifUncompressed := false }
      req := fun r ↦ Request.new (kind r) }
  step := State.step

/-- A push or a print comes when no other request is between its push and its print. -/
def Alone (s : State R) : Act R → Prop
  | .go r => (s.req r).todo.head? = some .choose ∨ ∀ q ≠ r, ∀ m, ¬ InFlight (s.req q) m
  | .oops _ => True

instance [Fintype R] (s : State R) : ∀ a, Decidable (Alone s a)
  | .go _ => inferInstanceAs (Decidable (_ ∨ _))
  | .oops _ => isTrue trivial

/-- What a step can do. -/
inductive State.Moves (s : State R) : Act R → State R → Prop
  | push (r m rest) (h : (s.req r).todo = .push m :: rest) : s.Moves (.go r)
      ({ s with entry := s.entry.pushManip m }.put r { s.req r with todo := rest })
  | choose (r rest) (h : (s.req r).todo = .choose :: rest) : s.Moves (.go r)
      (s.put r { s.req r with todo := rest, body := (s.req r).kind.body })
  | print (r rest) (h : (s.req r).todo = .print :: rest) : s.Moves (.go r)
      ({ s with entry := s.entry.print.2 }.put r
        { s.req r with todo := rest, block := some s.entry.print.1 })
  | oops (r) (h : (s.req r).todo = Kind.identity.program) : s.Moves (.oops r)
      (s.put r { s.req r with todo := [] })

/-- Every step is one of those. -/
theorem State.step_moves {s s' : State R} {a : Act R} (h : s.step a = some s') :
    s.Moves a s' := by
  unfold State.step at h
  split at h
  · next r =>
    split at h
    · next => cases h
    · next m rest ht =>
      cases h
      exact .push r m rest ht
    · next rest ht =>
      cases h
      exact .choose r rest ht
    · next rest ht =>
      cases h
      exact .print r rest ht
  · next r =>
    split at h
    · next ht =>
      cases h
      exact .oops r ht
    · next => cases h

/-- Where a request can be in its program, and what it has done there. -/
structure OnTrack (q : Request) : Prop where
  suffix : q.todo <:+ q.kind.program
  chosen : .print ∈ q.todo → .choose ∉ q.todo → q.body = q.kind.body
  printed : .print ∈ q.todo → q.block = none

/-- Requests start on track. -/
private theorem onTrack_new (k : Kind) : OnTrack (Request.new k) := by
  constructor
  case suffix => exact List.suffix_refl _
  case chosen =>
    intro _ h
    exact absurd (by cases k <;> decide) h
  case printed => exact fun _ ↦ rfl

/-- The places in the three programs. -/
theorem OnTrack.places {q : Request} (h : OnTrack q) : q.todo = [] ∨ q.todo = [.print] ∨
    (q.kind = .head ∧ (q.todo = [.choose, .print] ∨ q.todo = [.push .asHead, .choose, .print])) ∨
    (q.kind = .gzip ∧ q.todo = [.choose, .print]) ∨
    (q.kind = .identity ∧ (q.todo = [.push .asIdentity, .print] ∨
      q.todo = [.choose, .push .asIdentity, .print])) := by
  have hs := h.suffix
  cases hk : q.kind <;> rw [hk] at hs <;>
    simp only [Kind.program, List.suffix_cons_iff, List.suffix_nil] at hs <;>
    simp only [reduceCtorEq, false_and, true_and, false_or, or_false] <;> tauto

/-- A request with operations left has printed nothing. -/
private theorem OnTrack.unprinted {q : Request} (h : OnTrack q) (hne : q.todo ≠ []) :
    q.block = none := by
  apply h.printed
  rcases h.places with h | h | ⟨-, h | h⟩ | ⟨-, h⟩ | ⟨-, h | h⟩ <;> rw [h] at hne ⊢
  · exact absurd rfl hne
  all_goals decide

/-- Before its push a request has no manipulator in flight. -/
private theorem not_inFlight_of_push {q : Request} (h : OnTrack q) {m : Manip} {rest : List Op}
    (ht : q.todo = .push m :: rest) (m' : Manip) : ¬ InFlight q m' := by
  rintro ⟨hm, -, hp⟩
  rcases h.places with h | h | ⟨hk, h | h⟩ | ⟨hk, h⟩ | ⟨hk, h | h⟩ <;> rw [h] at ht hp <;> cases ht
  all_goals
    rw [hk] at hm
    cases hm
    exact hp List.mem_cons_self

/-- A push puts its manipulator in flight. -/
private theorem inFlight_push {q : Request} (h : OnTrack q) {m : Manip} {rest : List Op}
    (ht : q.todo = .push m :: rest) (m' : Manip) :
    InFlight { q with todo := rest } m' ↔ m' = m := by
  unfold InFlight
  rcases h.places with h | h | ⟨hk, h | h⟩ | ⟨hk, h⟩ | ⟨hk, h | h⟩ <;> rw [h] at ht <;> cases ht
  all_goals simp [hk, Kind.manip, eq_comm]

/-- Choosing the body leaves the manipulator where it is. -/
private theorem inFlight_choose {q : Request} {rest : List Op} (ht : q.todo = .choose :: rest)
    (b : Body) (m : Manip) : InFlight { q with todo := rest, body := b } m ↔ InFlight q m := by
  simp [InFlight, ht]

/-- What a request has in flight when it prints is what it pushed. -/
private theorem inFlight_print {q : Request} (h : OnTrack q) {rest : List Op}
    (ht : q.todo = .print :: rest) (m : Manip) : InFlight q m ↔ q.kind.manip = some m := by
  unfold InFlight
  rcases h.places with h | h | ⟨hk, h | h⟩ | ⟨hk, h⟩ | ⟨hk, h | h⟩ <;> rw [h] at ht <;> cases ht
  simp [h]

/-- A request that prints is at its end, with its body chosen. -/
theorem OnTrack.end_of_print {q : Request} (h : OnTrack q) {rest : List Op}
    (ht : q.todo = .print :: rest) : rest = [] ∧ q.body = q.kind.body := by
  have hb := h.chosen
  rcases h.places with h | h | ⟨hk, h | h⟩ | ⟨hk, h⟩ | ⟨hk, h | h⟩ <;> rw [h] at ht hb <;> cases ht
  exact ⟨rfl, hb (by decide) (by decide)⟩

/-- A request at its end has nothing in flight. -/
theorem not_inFlight_of_end {q : Request} (h : q.todo = []) (m : Manip) : ¬ InFlight q m := by
  rintro ⟨-, hp, -⟩
  rw [h] at hp
  exact absurd hp List.not_mem_nil

/-- A step keeps requests on track. -/
theorem onTrack_step {s s' : State R} {a : Act R} (h : ∀ r, OnTrack (s.req r))
    (hs : s.step a = some s') (p : R) : OnTrack (s'.req p) := by
  have hput {e : CacheEntry} (r : R) {q : Request} (hq : OnTrack q) :
      OnTrack ((State.put ⟨e, s.req⟩ r q).req p) := by
    by_cases hp : p = r
    · rw [hp, State.put_self]
      exact hq
    · rw [State.put_of_ne _ hp]
      exact h p
  cases State.step_moves hs with
  | push r m rest ht =>
    apply hput
    obtain ⟨hsuf, hch, hpr⟩ := h r
    rw [ht] at hsuf hch hpr
    exact ⟨(List.suffix_cons _ _).trans hsuf, fun h₁ h₂ ↦ hch (List.mem_cons_of_mem _ h₁)
      (by simpa using h₂), fun h₁ ↦ hpr (List.mem_cons_of_mem _ h₁)⟩
  | choose r rest ht =>
    apply hput
    obtain ⟨hsuf, -, hpr⟩ := h r
    rw [ht] at hsuf hpr
    exact ⟨(List.suffix_cons _ _).trans hsuf, fun _ _ ↦ rfl,
      fun h₁ ↦ hpr (List.mem_cons_of_mem _ h₁)⟩
  | print r rest ht =>
    apply hput
    obtain ⟨rfl, -⟩ := (h r).end_of_print ht
    exact ⟨List.nil_suffix, fun h₁ ↦ absurd h₁ List.not_mem_nil,
      fun h₁ ↦ absurd h₁ List.not_mem_nil⟩
  | oops r ht =>
    apply hput
    exact ⟨List.nil_suffix, fun h₁ ↦ absurd h₁ List.not_mem_nil,
      fun h₁ ↦ absurd h₁ List.not_mem_nil⟩

/-- A manipulator sets its flag and leaves the other one. -/
private theorem flag_pushManip (c : CacheEntry) (m m' : Manip) :
    flag (c.pushManip m) m' = true ↔ m' = m ∨ flag c m' = true := by
  cases m <;> cases m' <;> simp [flag, CacheEntry.pushManip]

/-- Printing clears the flags. -/
private theorem flag_print (c : CacheEntry) (m : Manip) : flag c.print.2 m = false := by
  cases m <;> rfl

/-- Manipulators do not change what describes a body. -/
private theorem describes_pushManip (c : CacheEntry) (m : Manip) (b : HeaderBlock) (body : Body) :
    Describes (c.pushManip m) b body ↔ Describes c b body := by
  cases m <;> exact Iff.rfl

/-- With the flags of its own manipulator and no others, a request prints what it sends. -/
private theorem describes_print {c : CacheEntry} {k : Kind}
    (h : ∀ m, flag c m = true ↔ k.manip = some m) : Describes c c.print.1 k.body := by
  have h₁ := h .asHead
  have h₂ := h .asIdentity
  cases k <;> simp [Kind.manip, flag] at h₁ h₂ <;>
    simp [Describes, CacheEntry.print, Kind.body, Body.size, Body.coding, h₁, h₂]

/-- An entry whose stored body can be told from an empty one and from an uncompressed one. -/
def Telling (c : CacheEntry) : Prop := 0 < c.szincache ∧ c.enc ≠ .identity

/-- Without any flag, a request that needs one prints headers that do not fit. -/
private theorem not_describes_print {c : CacheEntry} (hc : Telling c) {k : Kind} {m : Manip}
    (hk : k.manip = some m) (h : ∀ m, flag c m = false) : ¬ Describes c c.print.1 k.body := by
  have h₁ : c.omitBody = false := h .asHead
  have h₂ : c.asifUncompressed = false := h .asIdentity
  obtain ⟨hsz, henc⟩ := hc
  rintro ⟨hlen, hcoding⟩
  cases k with
  | head =>
    simp [CacheEntry.print, Kind.body, Body.size, h₁, h₂] at hlen
    omega
  | gzip => cases hk
  | identity =>
    have := hcoding .identity rfl
    simp [CacheEntry.print, h₂] at this
    exact henc this

/-- Steps do not change what the entry stores. -/
theorem telling_step {s s' : State R} {a : Act R} (h : Telling s.entry)
    (hs : s.step a = some s') : Telling s'.entry := by
  cases State.step_moves hs with
  | push r m rest ht => cases m <;> exact h
  | choose r rest ht => exact h
  | print r rest ht => exact h
  | oops r ht => exact h

/-- What a step does to the flags, to the requests in flight and to the responses. -/
inductive Effect (s : State R) : Act R → State R → Prop
  | push (r m s') (hop : (s.req r).todo.head? = some (.push m))
      (hfl : ∀ p m', InFlight (s'.req p) m' ↔ (p = r ∧ m' = m) ∨ InFlight (s.req p) m')
      (hown : ∀ m', ¬ InFlight (s.req r) m')
      (hflag : ∀ m', flag s'.entry m' = true ↔ m' = m ∨ flag s.entry m' = true)
      (hD : Described s → Described s') : Effect s (.go r) s'
  | print (r s') (hop : (s.req r).todo.head? = some .print)
      (hfl : ∀ p m', InFlight (s'.req p) m' ↔ p ≠ r ∧ InFlight (s.req p) m')
      (hown : ∀ m', InFlight (s.req r) m' ↔ (s.req r).kind.manip = some m')
      (hflag : ∀ m', flag s'.entry m' = false)
      (hD : Described s → Describes s.entry s.entry.print.1 (s.req r).kind.body → Described s')
      (hD' : Described s' → Describes s.entry s.entry.print.1 (s.req r).kind.body) :
      Effect s (.go r) s'
  | quiet (a s') (hA : Alone s a) (hfl : ∀ p m', InFlight (s'.req p) m' ↔ InFlight (s.req p) m')
      (hflag : ∀ m', flag s'.entry m' = flag s.entry m') (hD : Described s → Described s') :
      Effect s a s'

/-- A step that replaces one request by one with the same headers keeps responses fitting. -/
theorem Described.put {s : State R} (h : Described s) {c : CacheEntry}
    (hc : ∀ b body, Describes c b body ↔ Describes s.entry b body) {r : R} {q : Request}
    (hq : ∀ b ∈ q.block, Describes c b q.body) : Described (State.put ⟨c, s.req⟩ r q) := by
  intro p b hb
  by_cases hp : p = r
  · rw [hp, State.put_self] at hb ⊢
    exact hq b hb
  · rw [State.put_of_ne _ hp] at hb ⊢
    exact (hc b _).mpr (h p b hb)

/-- Every step of requests on track has one of those effects. -/
theorem effect_of_step {s s' : State R} {a : Act R} (h : ∀ r, OnTrack (s.req r))
    (hs : s.step a = some s') : Effect s a s' := by
  have hfly {e : CacheEntry} (r : R) {q : Request} (p : R) (m' : Manip) :
      InFlight ((State.put ⟨e, s.req⟩ r q).req p) m' ↔
        (p = r ∧ InFlight q m') ∨ (p ≠ r ∧ InFlight (s.req p) m') := by
    by_cases hp : p = r
    · rw [hp, State.put_self]
      simp
    · rw [State.put_of_ne _ hp]
      simp [hp]
  have hopen (r : R) {op : Op} {rest : List Op} (ht : (s.req r).todo = op :: rest) :
      (s.req r).block = none := (h r).unprinted (by rw [ht]; exact List.cons_ne_nil _ _)
  cases State.step_moves hs with
  | push r m rest ht =>
    have hnot := not_inFlight_of_push (h r) ht
    apply Effect.push r m _ (by rw [ht]; rfl) _ hnot
    · exact fun m' ↦ flag_pushManip s.entry m m'
    · intro hD
      apply hD.put (describes_pushManip s.entry m)
      rw [hopen r ht]
      nofun
    · intro p m'
      rw [hfly, inFlight_push (h r) ht]
      by_cases hp : p = r
      · subst hp
        simp [hnot]
      · simp [hp]
  | choose r rest ht =>
    apply Effect.quiet (.go r) _ (Or.inl (by rw [ht]; rfl))
    · intro p m'
      rw [hfly, inFlight_choose ht]
      by_cases hp : p = r
      · simp [hp]
      · simp [hp]
    · exact fun m' ↦ rfl
    · intro hD
      apply hD.put (fun _ _ ↦ Iff.rfl)
      rw [hopen r ht]
      nofun
  | print r rest ht =>
    obtain ⟨rfl, hbody⟩ := (h r).end_of_print ht
    apply Effect.print r _ (by rw [ht]; rfl) _ (fun m' ↦ inFlight_print (h r) ht m')
      (fun m' ↦ flag_print s.entry m')
    · intro hD hfit
      apply hD.put (fun _ _ ↦ Iff.rfl)
      intro b hb
      cases hb
      rw [hbody]
      exact hfit
    · intro hD
      have hfit := hD r s.entry.print.1 (by rw [State.put_self]; rfl)
      rw [State.put_self, hbody] at hfit
      exact hfit
    · intro p m'
      rw [hfly]
      simp [not_inFlight_of_end]
  | oops r ht =>
    have hnot : ∀ m', ¬ InFlight (s.req r) m' := by
      rintro m' ⟨hm, -, hp⟩
      rcases (h r).places with h | h | ⟨hk, h | h⟩ | ⟨hk, h⟩ | ⟨hk, h | h⟩ <;>
        rw [h] at ht hp <;> cases ht
      rw [hk] at hm
      cases hm
      exact hp (by decide)
    apply Effect.quiet (.oops r) _ trivial
    · intro p m'
      rw [hfly]
      by_cases hp : p = r
      · subst hp
        simp [not_inFlight_of_end, hnot]
      · simp [hp]
    · exact fun m' ↦ rfl
    · intro hD
      apply hD.put (fun _ _ ↦ Iff.rfl)
      rw [hopen r ht]
      nofun

/-- The flags are those of the request in flight, and there is at most one. -/
structure Lone (s : State R) : Prop where
  flags : ∀ m, flag s.entry m = true ↔ ∃ r, InFlight (s.req r) m
  one : ∀ r q m m', InFlight (s.req r) m → InFlight (s.req q) m' → r = q

/-- More requests are in flight than the flags can serve. -/
structure Excess (s : State R) : Prop where
  some : ∃ r m, InFlight (s.req r) m
  two : (∃ m, flag s.entry m = true) →
    ∃ r q m m', r ≠ q ∧ InFlight (s.req r) m ∧ InFlight (s.req q) m'

/-- A step taken alone prints what it sends and keeps the requests apart. -/
theorem lone_step {s s' : State R} {a : Act R} (ht : ∀ r, OnTrack (s.req r)) (hL : Lone s)
    (hD : Described s) (hs : s.step a = some s') (hA : Alone s a) : Lone s' ∧ Described s' := by
  cases effect_of_step ht hs with
  | push r m _ hop hfl hown hflag hkeep =>
    have hno : ∀ q m', ¬ InFlight (s.req q) m' := by
      intro q m'
      by_cases hq : q = r
      · rw [hq]
        exact hown m'
      · exact (hA.resolve_left (by rw [hop]; nofun)) q hq m'
    refine ⟨⟨?_, ?_⟩, hkeep hD⟩
    · intro m'
      rw [hflag, hL.flags]
      simp only [hfl, hno, exists_false, or_false, exists_eq_left]
    · intro p q m₁ m₂ hp hq
      simp only [hfl, hno, or_false] at hp hq
      rw [hp.1, hq.1]
  | print r _ hop hfl hown hflag hkeep hfit =>
    have hno := hA.resolve_left (by rw [hop]; nofun)
    refine ⟨⟨?_, ?_⟩, hkeep hD (describes_print ?_)⟩
    · intro m
      rw [hflag]
      simp only [hfl]
      constructor
      · nofun
      · rintro ⟨q, hq, hm⟩
        exact absurd hm (hno q hq m)
    · intro p q m₁ m₂ hp hq
      rw [hfl] at hp
      exact absurd hp.2 (hno p hp.1 m₁)
    · intro m
      rw [hL.flags, ← hown]
      constructor
      · rintro ⟨q, hq⟩
        by_cases hqr : q = r
        · rw [← hqr]
          exact hq
        · exact absurd hq (hno q hqr m)
      · exact fun h ↦ ⟨r, h⟩
  | quiet _ _ hA hfl hflag hkeep =>
    refine ⟨⟨?_, ?_⟩, hkeep hD⟩
    · intro m
      rw [hflag, hL.flags]
      simp only [hfl]
    · intro p q m₁ m₂ hp hq
      rw [hfl] at hp hq
      exact hL.one p q m₁ m₂ hp hq

/-- A step that is not taken alone leaves too many in flight. -/
private theorem excess_of_not_alone {s s' : State R} {a : Act R} (ht : ∀ r, OnTrack (s.req r))
    (hs : s.step a = some s') (hA : ¬ Alone s a) : Excess s' := by
  cases effect_of_step ht hs with
  | push r m _ hop hfl hown hflag hkeep =>
    obtain ⟨q, hq, m', hm'⟩ : ∃ q, q ≠ r ∧ ∃ m', InFlight (s.req q) m' := by
      simpa [Alone, hop] using hA
    have hr : InFlight (s'.req r) m := (hfl r m).mpr (.inl ⟨rfl, rfl⟩)
    exact ⟨⟨r, m, hr⟩, fun _ ↦ ⟨r, q, m, m', hq.symm, hr, (hfl q m').mpr (.inr hm')⟩⟩
  | print r _ hop hfl hown hflag hkeep hfit =>
    obtain ⟨q, hq, m', hm'⟩ : ∃ q, q ≠ r ∧ ∃ m', InFlight (s.req q) m' := by
      simpa [Alone, hop] using hA
    refine ⟨⟨q, m', (hfl q m').mpr ⟨hq, hm'⟩⟩, ?_⟩
    rintro ⟨m, hm⟩
    rw [hflag] at hm
    cases hm
  | quiet _ _ hA' hfl hflag hkeep => exact absurd hA' hA

/-- They stay too many until a response does not fit its body. -/
private theorem excess_step {s s' : State R} {a : Act R} (ht : ∀ r, OnTrack (s.req r))
    (hc : Telling s.entry) (hE : Excess s) (hs : s.step a = some s') (hD : Described s') :
    Excess s' := by
  cases effect_of_step ht hs with
  | push r m _ hop hfl hown hflag hkeep =>
    have hr : InFlight (s'.req r) m := (hfl r m).mpr (.inl ⟨rfl, rfl⟩)
    obtain ⟨q, m', hq⟩ := hE.some
    have hqr : r ≠ q := by
      rintro rfl
      exact hown m' hq
    exact ⟨⟨r, m, hr⟩, fun _ ↦ ⟨r, q, m, m', hqr, hr, (hfl q m').mpr (.inr hq)⟩⟩
  | print r _ hop hfl hown hflag hkeep hfit =>
    have hleft : ∃ q m, q ≠ r ∧ InFlight (s.req q) m := by
      by_cases hset : ∃ m, flag s.entry m = true
      · obtain ⟨p, q, m, m', hne, hp, hq⟩ := hE.two hset
        by_cases hpr : p = r
        · exact ⟨q, m', fun h ↦ hne (hpr.trans h.symm), hq⟩
        · exact ⟨p, m, hpr, hp⟩
      · obtain ⟨q, m, hq⟩ := hE.some
        refine ⟨q, m, ?_, hq⟩
        rintro rfl
        -- the request that prints finds its own flag gone
        exact not_describes_print hc ((hown m).mp hq) (by simpa using hset) (hfit hD)
    obtain ⟨q, m, hqr, hq⟩ := hleft
    refine ⟨⟨q, m, (hfl q m).mpr ⟨hqr, hq⟩⟩, ?_⟩
    rintro ⟨m, hm⟩
    rw [hflag] at hm
    cases hm
  | quiet _ _ hA hfl hflag hkeep =>
    obtain ⟨hsome, htwo⟩ := hE
    constructor
    · simpa only [hfl] using hsome
    · simpa only [hfl, hflag] using htwo

/-- Too many requests in flight never all land with headers that fit. -/
private theorem excess_run (kind : R → Kind) (c : CacheEntry) {s t : State R} {as : List (Act R)}
    (ht : ∀ r, OnTrack (s.req r)) (hc : Telling s.entry) (hE : Excess s)
    (hD : (requests kind c).AllStates Described s as) (hrun : (requests kind c).run s as = some t) :
    ∃ r m, InFlight (t.req r) m := by
  induction as generalizing s with
  | nil =>
    cases hrun
    exact hE.some
  | cons a as ih =>
    obtain ⟨s', hs, hrun⟩ := Option.bind_eq_some_iff.mp hrun
    have hD' := hD.2 s' hs
    exact ih (onTrack_step ht hs) (telling_step hc hs)
      (excess_step ht hc hE hs (Machine.AllStates.first _ hD')) hD' hrun

/-- Nothing is in flight at the start, and the flags are clear. -/
private theorem lone_init (kind : R → Kind) (c : CacheEntry) : Lone (requests kind c).init := by
  have hno (r : R) (m : Manip) : ¬ InFlight ((requests kind c).init.req r) m := by
    rintro ⟨hm, -, hp⟩
    change (kind r).manip = some m at hm
    change .push m ∉ (kind r).program at hp
    cases hk : kind r <;> rw [hk] at hm hp <;> cases hm <;> exact hp (by decide)
  constructor
  · intro m
    constructor
    · intro hm
      cases m <;> cases hm
    · rintro ⟨r, hr⟩
      exact absurd hr (hno r m)
  · exact fun r _ m _ hr ↦ absurd hr (hno r m)

/-- Steps taken alone keep every response fitting. -/
private theorem described_of_alone (kind : R → Kind) (c : CacheEntry) {s : State R}
    {as : List (Act R)}
    (ht : ∀ r, OnTrack (s.req r)) (hL : Lone s) (hD : Described s)
    (hA : (requests kind c).AllSteps Alone s as) : (requests kind c).AllStates Described s as := by
  induction as generalizing s with
  | nil => exact hD
  | cons a as ih =>
    refine ⟨hD, fun s' hs ↦ ?_⟩
    obtain ⟨hA, hrest⟩ := hA s' hs
    obtain ⟨hL', hD'⟩ := lone_step ht hL hD hs hA
    exact ih (onTrack_step ht hs) hL' hD' hrest

/-- Responses that all fit in a run that lands everything come of steps taken alone. -/
private theorem alone_of_described (kind : R → Kind) (c : CacheEntry) {s t : State R}
    {as : List (Act R)}
    (ht : ∀ r, OnTrack (s.req r)) (hL : Lone s) (hc : Telling s.entry)
    (hD : (requests kind c).AllStates Described s as) (hrun : (requests kind c).run s as = some t)
    (hland : ∀ r m, ¬ InFlight (t.req r) m) : (requests kind c).AllSteps Alone s as := by
  induction as generalizing s with
  | nil => exact trivial
  | cons a as ih =>
    intro s' hs
    rw [Machine.run_cons, hs] at hrun
    have hD' := hD.2 s' hs
    have hc' := telling_step hc hs
    by_cases hA : Alone s a
    · obtain ⟨hL', -⟩ := lone_step ht hL hD.1 hs hA
      exact ⟨hA, ih (onTrack_step ht hs) hL' hc' hD' hrun⟩
    · have hE := excess_of_not_alone ht hs hA
      obtain ⟨r, m, hr⟩ := excess_run kind c (onTrack_step ht hs) hc' hE hD' hrun
      exact absurd hr (hland r m)

/-- For any requests on one entry in any order of their steps: if every push and every print
comes when no other request is between the two, each response describes its body throughout.
Conversely, of an entry that is stored compressed, if all responses fit in a run that lands
every manipulator that took off, then every push and every print came so. -/
theorem described_iff_alone (kind : R → Kind) (c : CacheEntry) (as : List (Act R)) :
    ((requests kind c).AllSteps Alone (requests kind c).init as →
      (requests kind c).AllStates Described (requests kind c).init as) ∧
    (Telling c → ∀ t, (requests kind c).run (requests kind c).init as = some t →
      (∀ r m, ¬ InFlight (t.req r) m) →
      (requests kind c).AllStates Described (requests kind c).init as →
      (requests kind c).AllSteps Alone (requests kind c).init as) := by
  have htrack : ∀ r, OnTrack ((requests kind c).init.req r) := fun r ↦ onTrack_new (kind r)
  have hlone : Lone (requests kind c).init := lone_init kind c
  have hfit : Described (requests kind c).init := by
    intro r b hb
    cases hb
  constructor
  · intro hA
    exact described_of_alone kind c htrack hlone hfit hA
  · intro hc t hrun hland hD
    exact alone_of_described kind c htrack hlone hc hD hrun hland

/-- A `HEAD` and a `GET` that takes no compressed body, one after the other. -/
theorem described_iff_alone_in_turn :
    let M := requests ![.head, .identity] (.new 300 100 0 0 0 [] .gzip)
    let as : List (Act (Fin 2)) := [.go 0, .go 0, .go 0, .go 1, .go 1, .go 1]
    M.AllStates Described M.init as ∧ M.AllSteps Alone M.init as := by
  have h := described_iff_alone ![.head, .identity] (.new 300 100 0 0 0 [] .gzip)
    [.go 0, .go 0, .go 0, .go 1, .go 1, .go 1]
  have hD := h.1 (by decide)
  exact ⟨hD, h.2 ⟨by decide, by decide⟩ _ rfl (by decide) hD⟩

/-- A `HEAD` pushes its manipulator, then a `GET` that takes gzip prints: it announces no
bytes and sends all of them. -/
theorem not_described_of_head : ¬ ∀ (kind : Fin 2 → Kind) (c : CacheEntry) (as : List (Act (Fin 2))),
    (requests kind c).AllStates Described (requests kind c).init as := by
  intro h
  have hrun : ∃ s, (requests ![.head, .gzip] (.new 300 100 0 0 0 [] .gzip)).run
      (requests ![.head, .gzip] (.new 300 100 0 0 0 [] .gzip)).init [.go 0, .go 1, .go 1] = some s ∧
      (s.req 1).body.size s.entry = 100 ∧
      ∃ b ∈ (s.req 1).block, b.contentLength = 0 :=
    ⟨_, rfl, by decide, _, rfl, by decide⟩
  obtain ⟨s, hs, hsize, b, hb, hlen⟩ := hrun
  have hfit := (Machine.AllStates.last _ (h _ _ _) hs 1 b hb).1
  rw [hsize, hlen] at hfit
  cases hfit

end Filth.Sharing
