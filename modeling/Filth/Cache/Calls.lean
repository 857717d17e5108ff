import Filth.Cache.Sections

/-!
# Calls on the cache, one at a time

The member functions of `Cache`, `src/Cache.hpp:84–219`, as they run when no other thread is in
the middle of one: the sections one after the other. Which element `begin()` of a hash set is,
and whether `new` finds memory, are arguments.
-/

namespace Filth.Cache

open Base

variable {H S : Type} [DecidableEq H]

/-- `get`, `src/Cache.hpp:84–96`. -/
def get (c : Cache H S) (h : H) : Option S × Cache H S :=
  ((c.getSection h).1.map Stuff.s, (c.getSection h).2)

/-- `unget`, `src/Cache.hpp:98–117`: the last reference to an entry queues it, or has it evicted if
it is marked. -/
def unget (c : Cache H S) (h : H) : Cache H S :=
  let (doenq, c) := c.ungetSection h
  if doenq then
    if c.isInvalid h then
      let (evicted, c) := c.evictHandle h
      if evicted then c else c.enq h
    else c.enq h
  else c

/-- `evict()` for at most `n` handles. -/
def evictSome (first : List H → Option H) : Nat → Cache H S → Bool × Cache H S
  | 0, c => (false, c)
  | n + 1, c =>
    match first c.toevict with
    | none => (false, c)
    | some h =>
      let (evicted, c) := (c.pop h).evictHandle h
      if evicted then (true, c) else evictSome first n c

/-- `evict()`, `src/Cache.hpp:172–189`: every round takes a handle out of the queue. -/
def evict (first : List H → Option H) (c : Cache H S) : Bool × Cache H S :=
  evictSome first c.toevict.length c

/-- The rounds of `put`, at most `n`. -/
def putSome (first : List H → Option H) (room : Bool) (h : H) (s : S) (sz : Nat) :
    Nat → Cache H S → Bool × Cache H S
  | 0, c => (false, c)
  | n + 1, c =>
    let (fits, c) := c.reserve sz
    if fits then
      if room then c.insertNew h s sz else (false, c.giveBack sz)
    else
      let (evicted, c) := (c.giveBack sz).evict first
      if evicted then putSome first room h s sz n c else (false, c)

/-- `put`, `src/Cache.hpp:119–156`: every round but the last takes an entry out of the cache. -/
def put (first : List H → Option H) (room : Bool) (c : Cache H S) (h : H) (s : S) (sz : Nat) :
    Bool × Cache H S :=
  if c.max < sz then (false, c)
  else if (c.find h).isSome then (false, c)
  else putSome first room h s sz (c.cache.entries.length + 1) c

/-- From a cache to a later one: an entry keeps its number, a new one gets a new number. -/
structure Follows (c c' : Cache H S) : Prop where
  stored : c.stored ≤ c'.stored
  entry : ∀ h e', c'.find h = some e' →
    (∃ e, c.find h = some e ∧ e.id = e'.id) ∨ c.stored ≤ e'.id ∧ e'.id < c'.stored

namespace Follows

theorem refl (c : Cache H S) : Follows c c := ⟨le_rfl, fun _ e' h ↦ .inl ⟨e', h, rfl⟩⟩

theorem trans {c c' c'' : Cache H S} (h : Follows c c') (h' : Follows c' c'') : Follows c c'' := by
  refine ⟨h.stored.trans h'.stored, ?_⟩
  intro a e'' he''
  have hle := h.stored
  have hle' := h'.stored
  rcases h'.entry a e'' he'' with ⟨e', he', hid⟩ | ⟨hlow, hhigh⟩
  · rcases h.entry a e' he' with ⟨e, he, hid'⟩ | ⟨hlow, hhigh⟩
    · exact .inl ⟨e, he, hid'.trans hid⟩
    · right
      omega
  · right
    omega

/-- Nothing but the entries and their numbers matters. -/
theorem of_eq {c c' : Cache H S} (hc : c'.cache = c.cache) (hs : c'.stored = c.stored) :
    Follows c c' := by
  refine ⟨hs.ge, ?_⟩
  intro a e' he'
  rw [find, hc] at he'
  exact .inl ⟨e', he', rfl⟩

/-- Changing an entry without touching its number. -/
theorem of_adjust {c c' : Cache H S} {h : H} {f : Stuff S → Stuff S} (hf : ∀ e, (f e).id = e.id)
    (hs : c'.stored = c.stored)
    (hc : ∀ a, c'.find a = if a = h then (c.find h).map f else c.find a) : Follows c c' := by
  refine ⟨hs.ge, ?_⟩
  intro a e' he'
  rw [hc] at he'
  split at he'
  · next ha =>
    obtain ⟨e, he, rfl⟩ := Option.map_eq_some_iff.mp he'
    exact .inl ⟨e, ha ▸ he, (hf e).symm⟩
  · exact .inl ⟨e', he', rfl⟩

theorem getSection (c : Cache H S) (h : H) : Follows c (c.getSection h).2 :=
  of_adjust (f := fun e ↦ { e with refcnt := signed 32 (e.refcnt + 1) }) (fun _ ↦ rfl) rfl
    (c.find_getSection h)

theorem ungetSection (c : Cache H S) (h : H) : Follows c (c.ungetSection h).2 :=
  of_adjust (f := fun e ↦ { e with refcnt := signed 32 (e.refcnt - 1) }) (fun _ ↦ rfl) rfl
    (c.find_ungetSection h)

theorem adviseEvict (c : Cache H S) (h : H) : Follows c (c.adviseEvict h) :=
  of_adjust (f := fun e ↦ { e with invalid := true }) (fun _ ↦ rfl) rfl (c.find_adviseEvict h)

theorem evictHandle (c : Cache H S) (h : H) : Follows c (c.evictHandle h).2 :=
  ⟨(c.stored_evictHandle h).ge, fun _ e he ↦ .inl ⟨e, (find_of_evictHandle he).1, rfl⟩⟩

theorem insertNew (c : Cache H S) (h : H) (s : S) (sz : Nat) :
    Follows c (c.insertNew h s sz).2 := by
  constructor
  · rcases c.insertNew_cases h s sz with ⟨e, -, hsame⟩ | ⟨-, hnew⟩
    · rw [hsame]
    · rw [hnew]
      exact Nat.le_succ _
  · intro a e he
    rcases find_of_insertNew he with he | ⟨hnext, rfl⟩
    · exact .inl ⟨e, he, rfl⟩
    · rw [hnext]
      exact .inr ⟨le_rfl, Nat.lt_succ_self _⟩

theorem flush (c : Cache H S) : Follows c c.flush := by
  refine ⟨le_rfl, ?_⟩
  intro a e' he'
  rw [find_flush] at he'
  cases he'

theorem unget (c : Cache H S) (h : H) : Follows c (c.unget h) := by
  have hsection := ungetSection c h
  unfold Cache.unget
  dsimp only
  split
  · split
    · have hevict := hsection.trans (evictHandle (c.ungetSection h).2 h)
      split
      · exact hevict
      · exact hevict.trans (of_eq rfl rfl)
    · exact hsection.trans (of_eq rfl rfl)
  · exact hsection

private theorem evictSome (first : List H → Option H) (n : Nat) (c : Cache H S) :
    Follows c (c.evictSome first n).2 := by
  induction n generalizing c with
  | zero => exact refl c
  | succ n ih =>
    rw [Cache.evictSome]
    split
    · exact refl c
    · next h _ =>
      have hpop : Follows c (c.pop h) := of_eq rfl rfl
      have hevict := hpop.trans (evictHandle (c.pop h) h)
      dsimp only
      split
      · exact hevict
      · exact hevict.trans (ih _)

theorem evict (first : List H → Option H) (c : Cache H S) : Follows c (c.evict first).2 :=
  evictSome first _ c

private theorem putSome (first : List H → Option H) (room : Bool) (h : H) (s : S) (sz n : Nat)
    (c : Cache H S) : Follows c (putSome first room h s sz n c).2 := by
  induction n generalizing c with
  | zero => exact refl c
  | succ n ih =>
    have hreserve : Follows c (c.reserve sz).2 := of_eq rfl rfl
    rw [Cache.putSome]
    dsimp only
    split
    · split
      · exact hreserve.trans (insertNew _ h s sz)
      · exact hreserve.trans (of_eq rfl rfl)
    · have hback : Follows c ((c.reserve sz).2.giveBack sz) := of_eq rfl rfl
      have hevict := hback.trans (evict first _)
      split
      · exact hevict.trans (ih _)
      · exact hevict

theorem put (first : List H → Option H) (room : Bool) (c : Cache H S) (h : H) (s : S) (sz : Nat) :
    Follows c (c.put first room h s sz).2 := by
  unfold Cache.put
  split
  · exact refl c
  · split
    · exact refl c
    · exact putSome first room h s sz _ c

end Follows

end Filth.Cache
