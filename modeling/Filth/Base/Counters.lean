import Mathlib

/-!
# Wrapping counters, finite maps and their weights

Counters are held to 64 bits: `sizeAdd` and `sizeSub` are the wrapping sum and difference
that an atomic fetch-and-add performs. Signed numbers wrap around in two's complement. The weight of
a finite map is the sum of a natural number over its values.
-/

namespace Filth.Base

/-- Number of values of a 64-bit counter. -/
def sizeBound : Nat := 2 ^ 64

/-- Sum of two counters, modulo `2 ^ 64`. -/
def sizeAdd (a b : Nat) : Nat := (a + b) % sizeBound

/-- Difference of two counters, modulo `2 ^ 64`. -/
def sizeSub (a b : Nat) : Nat := (a + (sizeBound - b % sizeBound)) % sizeBound

/-- A sum below the bound is the plain sum. -/
theorem sizeAdd_of_lt {a b : Nat} (h : a + b < sizeBound) : sizeAdd a b = a + b :=
  Nat.mod_eq_of_lt h

/-- Nothing is left of a number that is subtracted from itself. -/
theorem sizeSub_self (n : Nat) : sizeSub n n = 0 := by
  have hlt := Nat.mod_lt n (by decide : 0 < sizeBound)
  have hdvd := Nat.div_add_mod n sizeBound
  have heq : n + (sizeBound - n % sizeBound) = sizeBound * (n / sizeBound + 1) := by
    rw [Nat.mul_add]
    omega
  rw [sizeSub, heq, Nat.mul_mod_right]

/-- A counter sum is below the bound. -/
theorem sizeAdd_lt (a b : Nat) : sizeAdd a b < sizeBound :=
  Nat.mod_lt _ (by decide)

/-- So is a counter difference. -/
theorem sizeSub_lt (a b : Nat) : sizeSub a b < sizeBound :=
  Nat.mod_lt _ (by decide)

/-- The counter sum is the plain sum exactly below the bound. -/
theorem sizeAdd_eq_iff {a b : Nat} : sizeAdd a b = a + b ↔ a + b < sizeBound := by
  constructor
  · intro h
    rw [← h]
    exact sizeAdd_lt a b
  · exact sizeAdd_of_lt

/-- Taking a summand away again leaves the other one. -/
theorem sizeSub_of_add {a b c : Nat} (h : a = b + c) (ha : a < sizeBound) :
    sizeSub a c = b := by
  have hc : c % sizeBound = c := Nat.mod_eq_of_lt (by omega)
  rw [sizeSub, hc, show a + (sizeBound - c) = b + sizeBound by omega, Nat.add_mod_right]
  exact Nat.mod_eq_of_lt (by omega)

section Signed

variable {w : Nat} {n : Int}

/-- The value of a signed number of `w` bits that wraps around. -/
def signed (w : Nat) (n : Int) : Int := n.bmod (2 ^ w)

/-- A number in range is itself. -/
theorem signed_of_range (hw : 0 < w) (hlo : -2 ^ (w - 1) ≤ n) (hhi : n < 2 ^ (w - 1)) :
    signed w n = n := by
  have htwice : ((2 ^ w : Nat) : Int) = 2 * 2 ^ (w - 1) := by
    rw [← Int.pow_succ', Nat.sub_add_cancel hw]
    norm_cast
  apply Int.bmod_eq_of_le_mul_two
  · rw [htwice]
    omega
  · rw [htwice]
    omega

theorem signed_signed_add (w : Nat) (m n : Int) : signed w (signed w m + n) = signed w (m + n) :=
  Int.bmod_add_bmod

/-- The number is zero if nothing is left of it within its bits. -/
theorem signed_natCast_eq_zero {k : Nat} : signed w k = 0 ↔ 2 ^ w ∣ k := by
  rw [signed, ← Int.dvd_iff_bmod_eq_zero, Int.natCast_dvd_natCast]

end Signed

section Weight

variable {κ β : Type*}

/-- Sum of `f` over the values of a finite map. -/
def weight (f : β → Nat) (m : AList fun _ : κ ↦ β) : Nat :=
  (m.entries.map fun e ↦ f e.2).sum

/-- The empty map weighs nothing. -/
@[simp] theorem weight_empty (f : β → Nat) : weight f (∅ : AList fun _ : κ ↦ β) = 0 := rfl

variable [DecidableEq κ]

/-- Removing a key takes the weight of its value away. -/
theorem weight_erase (f : β → Nat) {m : AList fun _ : κ ↦ β} {k : κ} {b : β}
    (h : m.lookup k = some b) : f b + weight f (m.erase k) = weight f m := by
  have hk : k ∈ m.entries.keys := AList.mem_keys.mp (AList.lookup_isSome.mp (by rw [h]; rfl))
  obtain ⟨c, l₁, l₂, hn, hm, he⟩ := List.exists_of_kerase hk
  have hc : c = b := by
    have hl : m.lookup k = some c := by
      rw [AList.mem_lookup_iff.mpr]
      rw [hm]
      exact List.mem_append_right _ List.mem_cons_self
    exact Option.some.inj (hl.symm.trans h)
  have hw : weight f (m.erase k) = ((l₁ ++ l₂).map fun e ↦ f e.2).sum := by
    rw [weight, ← he]
    rfl
  rw [hw, weight, hm, ← hc]
  simp only [List.map_append, List.sum_append, List.map_cons, List.sum_cons]
  omega

/-- Binding a fresh key adds the weight of its value. -/
theorem weight_insert_new (f : β → Nat) {m : AList fun _ : κ ↦ β} {k : κ} {b : β}
    (h : m.lookup k = none) : weight f (m.insert k b) = f b + weight f m := by
  have hk : k ∉ m := AList.lookup_eq_none.mp h
  rw [weight, AList.entries_insert_of_notMem hk]
  rfl

/-- Rebinding a key to a value of the same weight changes no weight. -/
private theorem weight_insert_same (f : β → Nat) {m : AList fun _ : κ ↦ β} {k : κ} {b c : β}
    (h : m.lookup k = some b) (hf : f c = f b) : weight f (m.insert k c) = weight f m := by
  have he := weight_erase f h
  have hi : weight f (m.insert k c) = f c + weight f (m.erase k) := rfl
  omega

/-- A value weighs at most as much as the map it is in. -/
theorem weight_le_of_lookup (f : β → Nat) {m : AList fun _ : κ ↦ β} {k : κ} {b : β}
    (h : m.lookup k = some b) : f b ≤ weight f m := by
  have he := weight_erase f h
  omega

end Weight

section Adjust

variable {κ β : Type*} [DecidableEq κ]

/-- Change the value of a key in place; an absent key stays absent. -/
def adjust (g : β → β) (k : κ) (m : AList fun _ : κ ↦ β) : AList fun _ : κ ↦ β :=
  match m.lookup k with
  | none => m
  | some b => m.insert k (g b)

/-- Only the adjusted key reads differently. -/
theorem lookup_adjust (g : β → β) (k a : κ) (m : AList fun _ : κ ↦ β) :
    (adjust g k m).lookup a = if a = k then (m.lookup k).map g else m.lookup a := by
  unfold adjust
  split
  · next h =>
    split
    · next ha => rw [ha, h]; rfl
    · rfl
  · next b h =>
    split
    · next ha => rw [ha, h, AList.lookup_insert]; rfl
    · next ha => exact AList.lookup_insert_ne ha

/-- What is found after an insertion is the new value or one of the old ones. -/
theorem lookup_insert_eq_some {m : AList fun _ : κ ↦ β} {k a : κ} {b d : β}
    (h : (m.insert k b).lookup a = some d) : a = k ∧ d = b ∨ a ≠ k ∧ m.lookup a = some d := by
  by_cases ha : a = k
  · rw [ha, AList.lookup_insert] at h
    exact .inl ⟨ha, (Option.some.inj h).symm⟩
  · rw [AList.lookup_insert_ne ha] at h
    exact .inr ⟨ha, h⟩

/-- An adjustment that keeps the weight of every value keeps the weight of the map. -/
theorem weight_adjust (f : β → Nat) {g : β → β} (hg : ∀ b, f (g b) = f b) (k : κ)
    (m : AList fun _ : κ ↦ β) : weight f (adjust g k m) = weight f m := by
  unfold adjust
  split
  · rfl
  · next b h => exact weight_insert_same f h (hg b)

end Adjust

end Filth.Base
