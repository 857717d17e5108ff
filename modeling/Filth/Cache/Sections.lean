import Filth.Base.Counters

/-!
# The cache, section by section

`src/Cache.hpp`. Each member function of `Cache` is a sequence of sections: a read or write
section of `cachelock`, a section of `evictlock`, or one atomic update of `cur`. Here every
section is a function on the cache; `Filth.Cache.Threads` interleaves them. Two fields are
for the proofs alone: the wrapped objects are numbered as they are stored, and the numbers of
those the cache has deleted are kept.
-/

namespace Filth

open Base

/-- `_Stuff`: the cached thing with its reference count, an `int`, and its size;
`src/Cache.hpp:19–28`. -/
structure Stuff (S : Type) where
  s : S
  refcnt : Int
  invalid : Bool
  sz : Nat
  id : Nat
  deriving DecidableEq, Repr

/-- The members of `Cache`; `src/Cache.hpp:30–40`. -/
structure Cache (H S : Type) where
  cache : AList fun _ : H ↦ Stuff S
  toevict : List H
  cur : Nat
  max : Nat
  stored : Nat
  deleted : List Nat

namespace Cache

variable {H S : Type} [DecidableEq H]

/-- An empty cache of the given capacity; `src/Cache.hpp:73–77`. -/
def new (max : Nat) : Cache H S :=
  { cache := ∅, toevict := [], cur := 0, max := max, stored := 0, deleted := [] }

/-- `cache.find(h)`. -/
def find (c : Cache H S) (h : H) : Option (Stuff S) := c.cache.lookup h

/-- Read section of `get`: take a reference to what is found. The `int` is counted up atomically
and wraps around; `src/Cache.hpp:89–95`. -/
def getSection (c : Cache H S) (h : H) : Option (Stuff S) × Cache H S :=
  (c.find h, { c with
    cache := adjust (fun e ↦ { e with refcnt := signed 32 (e.refcnt + 1) }) h c.cache })

/-- First half of the read section of `unget`: drop a reference, and say whether it was the
last one; `src/Cache.hpp:103–105`. -/
def ungetSection (c : Cache H S) (h : H) : Bool × Cache H S :=
  (match c.find h with
    | none => false
    | some e => decide (signed 32 (e.refcnt - 1) = 0),
   { c with cache := adjust (fun e ↦ { e with refcnt := signed 32 (e.refcnt - 1) }) h c.cache })

/-- Second half of the read section of `unget`: the flag of the entry; `src/Cache.hpp:106`. -/
def isInvalid (c : Cache H S) (h : H) : Bool :=
  match c.find h with
  | none => false
  | some e => e.invalid

/-- Section of `evictlock` in which `unget` queues a handle; `src/Cache.hpp:113–115`. -/
def enq (c : Cache H S) (h : H) : Cache H S := { c with toevict := c.toevict.insert h }

/-- Section of `evictlock` in which `evict()` takes a handle out; `src/Cache.hpp:177–185`. -/
def pop (c : Cache H S) (h : H) : Cache H S := { c with toevict := c.toevict.erase h }

/-- Write section of `evict(h)`: delete an entry that nobody refers to;
`src/Cache.hpp:197–206`. -/
def evictHandle (c : Cache H S) (h : H) : Bool × Cache H S :=
  match c.find h with
  | none => (false, c)
  | some e =>
    if e.refcnt = 0 then
      (true, { c with
        cache := c.cache.erase h
        cur := sizeSub c.cur e.sz
        deleted := e.id :: c.deleted })
    else (false, c)

/-- Atomic reservation by `put`, with its verdict; `src/Cache.hpp:132`. -/
def reserve (c : Cache H S) (sz : Nat) : Bool × Cache H S :=
  (decide (sizeAdd c.cur sz ≤ c.max), { c with cur := sizeAdd c.cur sz })

/-- Atomic return of a reservation; `src/Cache.hpp:133,145`. -/
def giveBack (c : Cache H S) (sz : Nat) : Cache H S := { c with cur := sizeSub c.cur sz }

/-- Write section of `put`: store the new entry unless another came first, in which case the
reservation stays counted; `src/Cache.hpp:149–154`. -/
def insertNew (c : Cache H S) (h : H) (s : S) (sz : Nat) : Bool × Cache H S :=
  match c.find h with
  | some _ => (false, c)
  | none =>
    (true, { c with
      cache := c.cache.insert h { s := s, refcnt := 1, invalid := false, sz := sz, id := c.stored }
      stored := c.stored + 1 })

/-- Read section of `advise_evict`; `src/Cache.hpp:215–218`. -/
def adviseEvict (c : Cache H S) (h : H) : Cache H S :=
  { c with cache := adjust (fun e ↦ { e with invalid := true }) h c.cache }

/-- Write section of `flush`: delete every entry, whatever its count, and restart the
counter; `src/Cache.hpp:162–169`. -/
def flush (c : Cache H S) : Cache H S :=
  { c with
    cache := ∅
    cur := 0
    deleted := (c.cache.entries.map fun e ↦ e.2.id) ++ c.deleted }

/-- Total size of the cached entries. -/
def size (c : Cache H S) : Nat := weight Stuff.sz c.cache

/-- Taking a reference changes one count. -/
theorem find_getSection (c : Cache H S) (h a : H) :
    (c.getSection h).2.find a =
      if a = h then (c.find h).map fun e ↦ { e with refcnt := signed 32 (e.refcnt + 1) }
      else c.find a :=
  lookup_adjust _ _ _ _

/-- Dropping a reference changes one count. -/
theorem find_ungetSection (c : Cache H S) (h a : H) :
    (c.ungetSection h).2.find a =
      if a = h then (c.find h).map fun e ↦ { e with refcnt := signed 32 (e.refcnt - 1) }
      else c.find a :=
  lookup_adjust _ _ _ _

/-- Advising an eviction changes one flag. -/
theorem find_adviseEvict (c : Cache H S) (h a : H) :
    (c.adviseEvict h).find a =
      if a = h then (c.find h).map fun e ↦ { e with invalid := true } else c.find a :=
  lookup_adjust _ _ _ _

/-- A reference more changes no size. -/
theorem size_getSection (c : Cache H S) (h : H) : (c.getSection h).2.size = c.size :=
  weight_adjust Stuff.sz (g := fun e ↦ { e with refcnt := signed 32 (e.refcnt + 1) }) (fun _ ↦ rfl)
    h c.cache

/-- A reference less changes no size. -/
theorem size_ungetSection (c : Cache H S) (h : H) : (c.ungetSection h).2.size = c.size :=
  weight_adjust Stuff.sz (g := fun e ↦ { e with refcnt := signed 32 (e.refcnt - 1) }) (fun _ ↦ rfl)
    h c.cache

/-- An advice changes no size. -/
theorem size_adviseEvict (c : Cache H S) (h : H) : (c.adviseEvict h).size = c.size :=
  weight_adjust Stuff.sz (g := fun e ↦ { e with invalid := true }) (fun _ ↦ rfl) h c.cache

/-- There is no entry at first. -/
theorem find_new (max : Nat) (a : H) : (new max : Cache H S).find a = none := AList.lookup_empty a

/-- What is found after entries have changed in place. -/
theorem exists_of_find_map {c c' : Cache H S} {g : H → Stuff S → Stuff S}
    (hfind : ∀ a, c'.find a = (c.find a).map (g a)) {a : H} {e : Stuff S}
    (he : c'.find a = some e) : ∃ d, c.find a = some d ∧ g a d = e := by
  rw [hfind] at he
  exact Option.map_eq_some_iff.mp he

/-- A flush leaves no entry. -/
theorem find_flush (c : Cache H S) (a : H) : c.flush.find a = none := AList.lookup_empty a

/-- A flush deletes precisely what was cached, on top of what was deleted before. -/
theorem mem_deleted_flush (c : Cache H S) (i : Nat) :
    i ∈ c.flush.deleted ↔ (∃ h e, c.find h = some e ∧ e.id = i) ∨ i ∈ c.deleted := by
  simp only [flush, List.mem_append, List.mem_map, find]
  apply or_congr_left
  constructor
  · rintro ⟨⟨h, e⟩, he, rfl⟩
    exact ⟨h, e, AList.mem_lookup_iff.mpr he, rfl⟩
  · rintro ⟨h, e, he, rfl⟩
    exact ⟨⟨h, e⟩, AList.mem_lookup_iff.mp he, rfl⟩

/-- What `evict(h)` does: nothing, or the deletion of an entry without references. -/
theorem evictHandle_cases (c : Cache H S) (h : H) :
    ((c.evictHandle h) = (false, c) ∧ ∀ e, c.find h = some e → e.refcnt ≠ 0) ∨
    ∃ e, c.find h = some e ∧ e.refcnt = 0 ∧
      c.evictHandle h = (true, { c with
        cache := c.cache.erase h
        cur := sizeSub c.cur e.sz
        deleted := e.id :: c.deleted }) := by
  unfold evictHandle
  cases hf : c.find h with
  | none => exact .inl ⟨rfl, fun e he ↦ by cases he⟩
  | some e =>
    by_cases hr : e.refcnt = 0
    · exact .inr ⟨e, rfl, hr, by simp [hr]⟩
    · refine .inl ⟨by simp [hr], ?_⟩
      rintro e' ⟨⟩
      exact hr

/-- What the last section of `put` does: nothing, or the insertion of a fresh entry. -/
theorem insertNew_cases (c : Cache H S) (h : H) (s : S) (sz : Nat) :
    (∃ e, c.find h = some e ∧ c.insertNew h s sz = (false, c)) ∨
    (c.find h = none ∧ c.insertNew h s sz = (true, { c with
      cache := c.cache.insert h
        { s := s, refcnt := 1, invalid := false, sz := sz, id := c.stored }
      stored := c.stored + 1 })) := by
  unfold insertNew
  cases hf : c.find h with
  | none => exact .inr ⟨rfl, rfl⟩
  | some e => exact .inl ⟨e, rfl, rfl⟩

/-- What is left after an attempt to evict was there before, and at the handle in question it has
references. -/
theorem find_of_evictHandle {c : Cache H S} {h a : H} {e : Stuff S}
    (he : (c.evictHandle h).2.find a = some e) :
    c.find a = some e ∧ (a = h → e.refcnt ≠ 0) := by
  rcases c.evictHandle_cases h with ⟨hc, hheld⟩ | ⟨d, -, -, hc⟩
  · rw [hc] at he
    refine ⟨he, ?_⟩
    rintro rfl
    exact hheld e he
  · rw [hc] at he
    change (c.cache.erase h).lookup a = some e at he
    by_cases ha : a = h
    · rw [ha, AList.lookup_erase] at he
      cases he
    · rw [AList.lookup_erase_ne ha] at he
      exact ⟨he, fun h ↦ absurd h ha⟩

/-- What is there after the last section of `put` was there before, or is the fresh entry. -/
theorem find_of_insertNew {c : Cache H S} {h a : H} {s : S} {sz : Nat} {e : Stuff S}
    (he : (c.insertNew h s sz).2.find a = some e) :
    c.find a = some e ∨ (c.insertNew h s sz).2.stored = c.stored + 1 ∧
      e = { s := s, refcnt := 1, invalid := false, sz := sz, id := c.stored } := by
  rcases c.insertNew_cases h s sz with ⟨d, -, hc⟩ | ⟨-, hc⟩
  · rw [hc] at he
    exact .inl he
  · rw [hc] at he ⊢
    rcases lookup_insert_eq_some he with ⟨-, hd⟩ | ⟨-, hd⟩
    · exact .inr ⟨rfl, hd⟩
    · exact .inl hd

/-- Handles are queued by `unget` alone. -/
theorem toevict_evictHandle (c : Cache H S) (h : H) : (c.evictHandle h).2.toevict = c.toevict := by
  rcases c.evictHandle_cases h with ⟨hc, -⟩ | ⟨d, -, -, hc⟩ <;> rw [hc]

theorem toevict_insertNew (c : Cache H S) (h : H) (s : S) (sz : Nat) :
    (c.insertNew h s sz).2.toevict = c.toevict := by
  rcases c.insertNew_cases h s sz with ⟨d, -, hc⟩ | ⟨-, hc⟩ <;> rw [hc]

/-- Nothing is stored by evicting. -/
theorem stored_evictHandle (c : Cache H S) (h : H) : (c.evictHandle h).2.stored = c.stored := by
  rcases c.evictHandle_cases h with ⟨hc, -⟩ | ⟨d, -, -, hc⟩ <;> rw [hc]

/-- Evicting an entry takes its size away from the total. -/
theorem size_evictHandle {c : Cache H S} {h : H} {e : Stuff S} (he : c.find h = some e)
    (hr : e.refcnt = 0) : c.size = (c.evictHandle h).2.size + e.sz := by
  have hw : e.sz + weight Stuff.sz (c.cache.erase h) = c.size := weight_erase Stuff.sz he
  have hs : (c.evictHandle h).2.size = weight Stuff.sz (c.cache.erase h) := by
    simp [evictHandle, he, hr, size]
  omega

/-- Storing an entry adds its size to the total. -/
theorem size_insertNew {c : Cache H S} {h : H} (hn : c.find h = none) (s : S) (sz : Nat) :
    (c.insertNew h s sz).2.size = c.size + sz := by
  have hw := weight_insert_new Stuff.sz hn
    (b := { s := s, refcnt := 1, invalid := false, sz := sz, id := c.stored })
  simp only [insertNew, hn, size]
  rw [hw]
  exact Nat.add_comm _ _

end Cache
end Filth
