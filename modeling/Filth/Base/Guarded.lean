import Mathlib

/-!
# Loops that move an index

Items in memory, and a guard behind them. A loop moves an unsigned index up or down as long as what
is there passes a test. The guard fails it, so that no such loop goes on for ever; but the way to
the guard may lead through all of memory.
-/

namespace Filth.Base

/-- Which way an index moves. -/
inductive Way where
  | up | down
  deriving DecidableEq, Repr

namespace Way

/-- One index further; behind the greatest one comes zero. -/
def next : Way → UInt64 → UInt64
  | up, i => i + 1
  | down, i => i - 1

/-- How far it is from one index to another. -/
def distance : Way → UInt64 → UInt64 → Nat
  | up, i, j => (j - i).toNat
  | down, i, j => (i - j).toNat

private theorem distance_next {w : Way} {i j : UInt64} (h : i ≠ j) :
    w.distance (w.next i) j < w.distance i j := by
  have hne : i.toNat ≠ j.toNat := fun heq ↦ h (UInt64.toNat_inj.mp heq)
  have hi := i.toNat_lt
  have hj := j.toNat_lt
  cases w with
  | up =>
    simp only [distance, next, UInt64.toNat_sub, UInt64.toNat_add, UInt64.toNat_one]
    omega
  | down =>
    simp only [distance, next, UInt64.toNat_sub, UInt64.toNat_one]
    omega

end Way

/-- Items that can be counted, a guard behind them that fails the test, and what is elsewhere. -/
structure Guarded {α : Type*} (p : α → Bool) where
  items : List α
  guard : α
  outside : UInt64 → α
  length_lt : items.length < 2 ^ 64 - 1
  guard_fails : p guard = false

namespace Guarded

variable {α : Type*} {p : α → Bool} (s : Guarded p)

/-- The number of items, which is where the guard is. -/
def size : UInt64 := UInt64.ofNat s.items.length

/-- What is at an index. -/
def get (i : UInt64) : α :=
  if i = s.size then s.guard else s.items.getD i.toNat (s.outside i)

/-- The index of an item or of the guard. -/
def Inside (i : UInt64) : Prop := i.toNat ≤ s.items.length

instance (i : UInt64) : Decidable (s.Inside i) := inferInstanceAs (Decidable (_ ≤ _))

@[simp] theorem toNat_size : s.size.toNat = s.items.length := by
  have hlt := s.length_lt
  rw [size, UInt64.toNat_ofNat']
  omega

@[simp] theorem get_size : s.get s.size = s.guard := if_pos rfl

variable {s}

private theorem ne_size_of_pass {i : UInt64} (h : p (s.get i) = true) : i ≠ s.size := by
  rintro rfl
  rw [get_size, s.guard_fails] at h
  cases h

private theorem get_of_append {i : UInt64} {before after : List α} {x : α}
    (h : s.items = before ++ x :: after) (hi : i.toNat = before.length) : s.get i = x := by
  have hne : i ≠ s.size := by
    intro heq
    have hlen := congrArg UInt64.toNat heq
    rw [toNat_size, h, hi, List.length_append, List.length_cons] at hlen
    omega
  rw [get, if_neg hne, h, hi]
  simp

variable (s)

/-- The indices that `while (p(s[i])) i = next(i);` tests. -/
def tested (w : Way) (i : UInt64) : List UInt64 :=
  if p (s.get i) then i :: tested w (w.next i) else [i]
termination_by w.distance i s.size
decreasing_by exact Way.distance_next (ne_size_of_pass ‹_›)

/-- The index it stops at, which is the last of these. -/
def stop (w : Way) (i : UInt64) : UInt64 := (s.tested w i).getLastD i

/-- The loop stays with the items and the guard, and ends at an index. -/
structure EndsAt (w : Way) (i : UInt64) (n : Nat) : Prop where
  inside : ∀ k ∈ s.tested w i, s.Inside k
  toNat_stop : (s.stop w i).toNat = n

variable {s} {w : Way} {i : UInt64} {n : Nat}

private theorem tested_of_pass (h : p (s.get i) = true) :
    s.tested w i = i :: s.tested w (w.next i) := by
  rw [tested, if_pos h]

private theorem tested_of_fail (h : p (s.get i) = false) : s.tested w i = [i] := by
  rw [tested, h, if_neg Bool.false_ne_true]

/-- The first index is tested in any case. -/
theorem exists_tested (s : Guarded p) (w : Way) (i : UInt64) : ∃ l, s.tested w i = i :: l := by
  unfold tested
  split
  · exact ⟨_, rfl⟩
  · exact ⟨[], rfl⟩

private theorem mem_tested_self : i ∈ s.tested w i := by
  obtain ⟨l, hl⟩ := s.exists_tested w i
  rw [hl]
  exact List.mem_cons_self

private theorem EndsAt.of_fail (hi : s.Inside i) (h : p (s.get i) = false) :
    s.EndsAt w i i.toNat := by
  constructor
  · rw [tested_of_fail h]
    exact List.forall_mem_singleton.mpr hi
  · rw [stop, tested_of_fail h]
    rfl

private theorem EndsAt.of_pass (hi : s.Inside i) (h : p (s.get i) = true)
    (hn : s.EndsAt w (w.next i) n) :
    s.EndsAt w i n := by
  constructor
  · rw [tested_of_pass h]
    exact List.forall_mem_cons.mpr ⟨hi, hn.inside⟩
  · obtain ⟨l, hl⟩ := s.exists_tested w (w.next i)
    rw [stop, tested_of_pass h, ← hn.toNat_stop, stop, hl]
    rfl

variable {before mid after : List α}

/-- On the way up, the loop passes items up to one that fails, or to the guard. -/
theorem up_of_append (h : s.items = before ++ (mid ++ after)) (hi : i.toNat = before.length)
    (hmid : ∀ x ∈ mid, p x = true) (hafter : ∀ x ∈ after.head?, p x = false) :
    s.EndsAt .up i (before.length + mid.length) := by
  have hlen := congrArg List.length h
  rw [List.length_append, List.length_append] at hlen
  have hinside : s.Inside i := by
    rw [Inside]
    omega
  induction mid generalizing before i with
  | nil =>
    have hfail : p (s.get i) = false := by
      cases after with
      | nil =>
        have hsize : i = s.size := UInt64.toNat_inj.mp (by rw [toNat_size, hi, hlen]; rfl)
        rw [hsize, get_size, s.guard_fails]
      | cons x after => rw [get_of_append h hi, hafter x rfl]
    exact hi ▸ .of_fail hinside hfail
  | cons x mid ih =>
    have hpass : p (s.get i) = true := by
      rw [get_of_append h hi, hmid x List.mem_cons_self]
    have hlt := s.length_lt
    have hitems : s.items = (before ++ [x]) ++ (mid ++ after) := by rw [h]; simp
    have hnext : (Way.up.next i).toNat = (before ++ [x]).length := by
      rw [Way.next, UInt64.toNat_add, UInt64.toNat_one, hi, List.length_append,
        List.length_singleton]
      omega
    rw [List.length_cons] at hlen ⊢
    have hend := ih hitems hnext (fun y hy ↦ hmid y (List.mem_cons_of_mem x hy)) (by simp; omega)
      (by rw [Inside, hnext]; simp; omega)
    rw [List.length_append, List.length_singleton, Nat.add_assoc, Nat.add_comm 1] at hend
    exact .of_pass hinside hpass hend

/-- On the way down, it passes items up to one that fails. -/
theorem down_of_append {x : α} (h : s.items = before ++ x :: (mid ++ after))
    (hi : i.toNat = before.length + mid.length) (hx : p x = false)
    (hmid : ∀ y ∈ mid, p y = true) : s.EndsAt .down i before.length := by
  have hlen := congrArg List.length h
  rw [List.length_append, List.length_cons, List.length_append] at hlen
  have hinside : s.Inside i := by
    rw [Inside]
    omega
  induction mid using List.reverseRecOn generalizing after i with
  | nil =>
    have hself := EndsAt.of_fail (w := .down) hinside (by rw [get_of_append h hi, hx])
    rwa [hi] at hself
  | append_singleton mid y ih =>
    rw [List.length_append, List.length_singleton] at hlen hi
    have hlast : s.items = (before ++ x :: mid) ++ y :: after := by rw [h]; simp
    have hpass : p (s.get i) = true := by
      rw [get_of_append hlast (by simp; omega)]
      exact hmid y (List.mem_append_right mid List.mem_cons_self)
    have hitems : s.items = before ++ x :: (mid ++ y :: after) := by rw [h]; simp
    have hnext : (Way.down.next i).toNat = before.length + mid.length := by
      have hlt := i.toNat_lt
      rw [Way.next, UInt64.toNat_sub, UInt64.toNat_one, hi]
      omega
    exact .of_pass hinside hpass (ih hitems hnext
      (fun z hz ↦ hmid z (List.mem_append_left [y] hz)) (by simp; omega)
      (by rw [Inside, hnext]; omega))

/-- If there is none, it passes the first item and goes on at the greatest index. -/
theorem down_past_zero (h : s.items = mid ++ after) (hi : i = UInt64.ofNat mid.length - 1)
    (hmid : ∀ x ∈ mid, p x = true) : -1 ∈ s.tested .down i := by
  subst hi
  induction mid using List.reverseRecOn generalizing after with
  | nil => exact mem_tested_self
  | append_singleton mid x ih =>
    have hitems : s.items = mid ++ x :: after := h.trans (List.append_assoc mid [x] after)
    have hlt := s.length_lt
    rw [hitems, List.length_append, List.length_cons] at hlt
    have hlast : UInt64.ofNat (mid ++ [x]).length - 1 = UInt64.ofNat mid.length := by
      rw [List.length_append, List.length_singleton, UInt64.ofNat_add]
      exact UInt64.add_sub_cancel _ _
    have hpass : p (s.get (UInt64.ofNat mid.length)) = true := by
      rw [get_of_append hitems (by rw [UInt64.toNat_ofNat']; omega)]
      exact hmid x (List.mem_append_right mid List.mem_cons_self)
    rw [hlast, tested_of_pass hpass]
    exact List.mem_cons_of_mem _ (ih hitems fun y hy ↦ hmid y (List.mem_append_left [x] hy))

/-- The greatest index is not inside. -/
theorem not_inside_neg_one : ¬ s.Inside (-1) := by
  have hlt := s.length_lt
  have hneg : (-1 : UInt64).toNat = 2 ^ 64 - 1 := rfl
  rw [Inside, hneg]
  omega

end Guarded
end Filth.Base
