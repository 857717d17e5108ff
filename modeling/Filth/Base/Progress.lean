import Filth.Base.Machine

/-!
# Runs that get somewhere

A goal is reached if from every state that has not reached it some step can be taken, and every step
leads nearer to it.
-/

namespace Filth.Base.Machine

universe u v

variable {σ : Type u} {α : Type v} (M : Machine σ α)

section Goal

variable {J G : σ → Prop} {D : α → Prop} {μ : σ → Nat}

/-- Until the goal is reached, actions of a kind keep an invariant and bring a number down: then
there is a way to it, with these actions only, if one of them can always be taken. -/
theorem reaches_of_progress
    (hstep : ∀ s a s', J s → ¬ G s → D a → M.step s a = some s' → J s' ∧ μ s' < μ s)
    (hgo : ∀ s, J s → ¬ G s → ∃ a, D a ∧ (M.step s a).isSome) {s : σ} (hs : J s) :
    ∃ as t, (∀ a ∈ as, D a) ∧ M.run s as = some t ∧ G t := by
  induction hμ : μ s using Nat.strongRecOn generalizing s with
  | ind k ih =>
    by_cases hG : G s
    · exact ⟨[], s, nofun, rfl, hG⟩
    · obtain ⟨a, ha, hsome⟩ := hgo s hs hG
      obtain ⟨s', hs'⟩ := Option.isSome_iff_exists.mp hsome
      obtain ⟨hJ, hlt⟩ := hstep s a s' hs hG ha hs'
      obtain ⟨as, t, has, hrun, ht⟩ := ih (μ s') (hμ ▸ hlt) hJ rfl
      refine ⟨a :: as, t, List.forall_mem_cons.mpr ⟨ha, has⟩, ?_, ht⟩
      rw [run_cons, hs']
      exact hrun

/-- And every run of them comes by the goal, or it is not longer than that and can go on. -/
theorem passes_of_progress
    (hstep : ∀ s a s', J s → ¬ G s → D a → M.step s a = some s' → J s' ∧ μ s' < μ s)
    (hgo : ∀ s, J s → ¬ G s → ∃ a, D a ∧ (M.step s a).isSome) {s t : σ} (hs : J s) {as : List α}
    (has : ∀ a ∈ as, D a) (hrun : M.run s as = some t) :
    (∃ p u, p <+: as ∧ M.run s p = some u ∧ G u) ∨
      as.length + μ t ≤ μ s ∧ ∃ a, D a ∧ (M.step t a).isSome := by
  induction as generalizing s with
  | nil =>
    obtain rfl : s = t := Option.some.inj hrun
    by_cases hG : G s
    · exact .inl ⟨[], s, List.prefix_rfl, rfl, hG⟩
    · exact .inr ⟨by simp, hgo s hs hG⟩
  | cons a as ih =>
    by_cases hG : G s
    · exact .inl ⟨[], s, List.nil_prefix, rfl, hG⟩
    · rw [run_cons] at hrun
      obtain ⟨s', hs', hrun⟩ := Option.bind_eq_some_iff.mp hrun
      obtain ⟨ha, has⟩ := List.forall_mem_cons.mp has
      obtain ⟨hJ, hlt⟩ := hstep s a s' hs hG ha hs'
      rcases ih hJ has hrun with ⟨p, u, hp, hpu, hu⟩ | ⟨hlen, hnext⟩
      · refine .inl ⟨a :: p, u, List.cons_prefix_cons.mpr ⟨rfl, hp⟩, ?_, hu⟩
        rw [run_cons, hs']
        exact hpu
      · refine .inr ⟨?_, hnext⟩
        rw [List.length_cons]
        omega

end Goal

/-- The potential method: if actions of one kind draw on something that only those of another kind
add to, so much each, then in a run there are no more of the former than the latter pay for. -/
theorem countP_of_run {J : σ → Prop} {D : α → Prop} {μ : σ → Nat} {p q : α → Bool} {b : Nat}
    (hstep : ∀ s a s', J s → D a → M.step s a = some s' →
      J s' ∧ (p a).toNat + μ s' ≤ μ s + b * (q a).toNat)
    {s t : σ} (hs : J s) {as : List α} (has : ∀ a ∈ as, D a) (hrun : M.run s as = some t) :
    J t ∧ as.countP p + μ t ≤ μ s + b * as.countP q := by
  induction as generalizing s with
  | nil =>
    obtain rfl : s = t := Option.some.inj hrun
    exact ⟨hs, by simp⟩
  | cons a as ih =>
    obtain ⟨ha, has⟩ := List.forall_mem_cons.mp has
    obtain ⟨s', hs', hrun⟩ := Option.bind_eq_some_iff.mp hrun
    obtain ⟨hJ, hle⟩ := hstep s a s' hs ha hs'
    obtain ⟨ht, hrest⟩ := ih hJ has hrun
    have hcons (r : α → Bool) : (a :: as).countP r = as.countP r + (r a).toNat := by
      rw [List.countP_cons]
      cases r a <;> rfl
    refine ⟨ht, ?_⟩
    rw [hcons p, hcons q, Nat.mul_add]
    omega

/-- If every step either keeps what relates a state to an earlier one, or relates the state that it
leads to to itself, then the last state of a run is related to one that the run has come by. -/
theorem seen_of_run {J : σ → Prop} {C : σ → α → Prop} {Q : σ → σ → Prop}
    (hstep : ∀ s a s', J s → C s a → M.step s a = some s' →
      J s' ∧ ((∀ u, Q s u → Q s' u) ∨ Q s' s'))
    {s t : σ} (hs : J s) (hQ : Q s s) {as : List α} (has : M.AllSteps C s as)
    (hrun : M.run s as = some t) : ∃ p u, p <+: as ∧ M.run s p = some u ∧ Q t u := by
  suffices h : ∀ v, Q s v → Q t v ∨ ∃ p u, p <+: as ∧ M.run s p = some u ∧ Q t u by
    rcases h s hQ with hseen | hseen
    · exact ⟨[], s, List.nil_prefix, rfl, hseen⟩
    · exact hseen
  clear hQ
  induction as generalizing s with
  | nil =>
    obtain rfl : s = t := Option.some.inj hrun
    exact fun v hv ↦ .inl hv
  | cons a as ih =>
    intro v hv
    obtain ⟨s', hs', hrest⟩ := Option.bind_eq_some_iff.mp hrun
    obtain ⟨hC, has'⟩ := has s' hs'
    obtain ⟨hJ, hkeeps⟩ := hstep s a s' hs hC hs'
    have hlater {v : σ} (h : ∃ p u, p <+: as ∧ M.run s' p = some u ∧ Q t u) :
        Q t v ∨ ∃ p u, p <+: a :: as ∧ M.run s p = some u ∧ Q t u := by
      obtain ⟨p, u, hp, hpu, hu⟩ := h
      refine .inr ⟨a :: p, u, List.cons_prefix_cons.mpr ⟨rfl, hp⟩, ?_, hu⟩
      rw [run_cons, hs']
      exact hpu
    rcases hkeeps with hkeeps | hnew
    · rcases ih hJ has' hrest v (hkeeps v hv) with hseen | hseen
      · exact .inl hseen
      · exact hlater hseen
    · rcases ih hJ has' hrest s' hnew with hseen | hseen
      · exact hlater ⟨[], s', List.nil_prefix, rfl, hseen⟩
      · exact hlater hseen

/-- What is kept by every step is kept to the end of a run. -/
theorem keeps_to_end {P : σ → Prop} (hstep : ∀ s a s', P s → M.step s a = some s' → P s')
    {s t : σ} (hs : P s) {as : List α} (hrun : M.run s as = some t) : P t :=
  AllStates.last M (M.allStates_of_step hstep hs as) hrun

end Filth.Base.Machine
