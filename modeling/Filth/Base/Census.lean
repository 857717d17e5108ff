import Mathlib.Algebra.BigOperators.Group.Finset.Basic
import Mathlib.Algebra.Order.BigOperators.Group.Finset
import Mathlib.Tactic.Abel

/-!
# Sums over threads

Finitely many threads, each at a place of its own in a program. Places have weights, and the
weights of all threads are added up. When one thread goes on, the sum changes by the weights of the
two places.
-/

namespace Filth.Base

section Census

variable {T α M : Type*} [Fintype T]

/-- How many threads are at places of a kind. -/
def census (p : α → Bool) (pc : T → α) : Nat := ∑ t, (p (pc t)).toNat

/-- Somebody is counted if there is somebody to count. -/
theorem census_pos_iff {p : α → Bool} {pc : T → α} : 0 < census p pc ↔ ∃ t, p (pc t) = true := by
  unfold census
  rw [Finset.sum_pos_iff]
  simp [Bool.toNat_eq_zero, Nat.pos_iff_ne_zero]

/-- Where all threads are at places of no such kind, none are counted. -/
theorem census_eq_zero {p : α → Bool} {pc : T → α} (h : ∀ t, p (pc t) = false) :
    census p pc = 0 := by
  apply Finset.sum_eq_zero
  intro t _
  rw [h t]
  rfl

variable [DecidableEq T]

/-- One thread goes on. -/
theorem sum_update [AddCommMonoid M] (f : α → M) (pc : T → α) (t : T) (a : α) :
    ∑ x, f (Function.update pc t a x) + f (pc t) = ∑ x, f (pc x) + f a := by
  have hrest : ∑ x ∈ Finset.univ.erase t, f (Function.update pc t a x) =
      ∑ x ∈ Finset.univ.erase t, f (pc x) := by
    apply Finset.sum_congr rfl
    intro x hx
    rw [Function.update_of_ne (Finset.ne_of_mem_erase hx)]
  rw [← Finset.add_sum_erase Finset.univ _ (Finset.mem_univ t), hrest, Function.update_self,
    ← Finset.add_sum_erase Finset.univ (fun x ↦ f (pc x)) (Finset.mem_univ t)]
  abel

/-- The count follows the one thread. -/
theorem census_update (p : α → Bool) (pc : T → α) (t : T) (a : α) :
    census p (Function.update pc t a) + (p (pc t)).toNat = census p pc + (p a).toNat :=
  sum_update (fun a ↦ (p a).toNat) pc t a

end Census

end Filth.Base
