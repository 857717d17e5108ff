import Filth.Base.Machine

/-!
# One machine follows another

A relation between the states of two machines that is kept when the second takes the step that
corresponds to a step of the first carries over to runs.
-/

namespace Filth.Base.Machine

universe u v w x

variable {σ : Type u} {α : Type v} {τ : Type w} {β : Type x} (M : Machine σ α) (N : Machine τ β)

/-- Every step of the first machine that meets a condition has its counterpart in the second. -/
structure Follows (C : σ → α → Prop) (R : σ → τ → Prop) (f : α → β) : Prop where
  init : R M.init N.init
  step : ∀ s t a s', R s t → C s a → M.step s a = some s' →
    ∃ t', N.step t (f a) = some t' ∧ R s' t'

namespace Follows

variable {M : Machine σ α} {N : Machine τ β} {C : σ → α → Prop} {R : σ → τ → Prop} {f : α → β}
  {s s' : σ} {t : τ} {as : List α}

/-- So has every run of such steps. -/
theorem run (h : Follows M N C R f) (hR : R s t) (hC : M.AllSteps C s as)
    (hrun : M.run s as = some s') : ∃ t', N.run t (as.map f) = some t' ∧ R s' t' := by
  induction as generalizing s t with
  | nil =>
    cases hrun
    exact ⟨t, rfl, hR⟩
  | cons a as ih =>
    rw [run_cons] at hrun
    obtain ⟨s₁, hs₁, hrun⟩ := Option.bind_eq_some_iff.mp hrun
    obtain ⟨ha, has⟩ := hC s₁ hs₁
    obtain ⟨t₁, ht₁, hR₁⟩ := h.step s t a s₁ hR ha hs₁
    obtain ⟨t', ht', hR'⟩ := ih hR₁ has hrun
    refine ⟨t', ?_, hR'⟩
    rw [List.map_cons, run_cons, ht₁]
    exact ht'

/-- What is true of the second machine at a moment of its run was so for the first. -/
theorem back (h : Follows M N C R f) (hR : R s t) (hC : M.AllSteps C s as)
    (hrun : M.run s as = some s') {bs : List β} (hbs : bs <+: as.map f) {t₁ : τ}
    (ht₁ : N.run t bs = some t₁) :
    ∃ p s₁, p <+: as ∧ M.run s p = some s₁ ∧ R s₁ t₁ := by
  induction as generalizing s t bs with
  | nil =>
    obtain rfl := List.prefix_nil.mp hbs
    cases ht₁
    exact ⟨[], s, List.prefix_rfl, rfl, hR⟩
  | cons a as ih =>
    cases bs with
    | nil =>
      cases ht₁
      exact ⟨[], s, List.nil_prefix, rfl, hR⟩
    | cons b bs =>
      rw [List.map_cons, List.cons_prefix_cons] at hbs
      obtain ⟨rfl, hbs⟩ := hbs
      rw [run_cons] at hrun ht₁
      obtain ⟨s₂, hs₂, hrun⟩ := Option.bind_eq_some_iff.mp hrun
      obtain ⟨ha, has⟩ := hC s₂ hs₂
      obtain ⟨t₂, ht₂, hR₂⟩ := h.step s t a s₂ hR ha hs₂
      rw [ht₂] at ht₁
      obtain ⟨p, s₁, hp, hsp, hR₁⟩ := ih hR₂ has hrun hbs ht₁
      refine ⟨a :: p, s₁, List.cons_prefix_cons.mpr ⟨rfl, hp⟩, ?_, hR₁⟩
      rw [run_cons, hs₂]
      exact hsp

end Follows

end Filth.Base.Machine
