import Mathlib.Order.Notation

/-!
# Partial machines and their runs

A machine takes one action at a time; an action that is not enabled has no successor.
Every choice the environment makes (which thread moves, what a system call returns) is
part of the action, so a run is a list of actions. The rules below turn facts about one
step into facts about every state of every run.
-/

namespace Filth.Base

universe u v

/-- A start state and a partial step function. -/
structure Machine (σ : Type u) (α : Type v) where
  init : σ
  step : σ → α → Option σ

namespace Machine

variable {σ : Type u} {α : Type v} (M : Machine σ α)

/-- The state after a list of actions, if each was enabled when its turn came. -/
def run : σ → List α → Option σ
  | s, [] => some s
  | s, a :: as => (M.step s a).bind fun s' ↦ run s' as

/-- `P` holds in every state that the actions pass through, the start included. -/
def AllStates (P : σ → Prop) : σ → List α → Prop
  | s, [] => P s
  | s, a :: as => P s ∧ ∀ s', M.step s a = some s' → AllStates P s' as

/-- `C` holds of every enabled action, in the state in which it is taken. -/
def AllSteps (C : σ → α → Prop) : σ → List α → Prop
  | _, [] => True
  | s, a :: as => ∀ s', M.step s a = some s' → C s a ∧ AllSteps C s' as

instance decidableAllSteps (C : σ → α → Prop) [∀ s a, Decidable (C s a)] :
    ∀ s as, Decidable (M.AllSteps C s as)
  | _, [] => isTrue trivial
  | s, a :: as =>
    match h : M.step s a with
    | none => isTrue fun s' hs ↦ by rw [h] at hs; cases hs
    | some s' =>
      have := decidableAllSteps C s' as
      decidable_of_iff (C s a ∧ M.AllSteps C s' as) (by
        constructor
        · intro hC s'' hs
          rw [h] at hs
          cases hs
          exact hC
        · exact fun hC ↦ hC s' h)

/-- States that some list of actions leads to. -/
def Reachable (t : σ) : Prop := ∃ as, M.run M.init as = some t

/-- The first action runs first. -/
theorem run_cons (s : σ) (a : α) (as : List α) :
    M.run s (a :: as) = (M.step s a).bind fun s' ↦ M.run s' as := rfl

/-- A run of two lists is a run of the first, then of the second. -/
theorem run_append (s : σ) (as bs : List α) :
    M.run s (as ++ bs) = (M.run s as).bind fun t ↦ M.run t bs := by
  induction as generalizing s with
  | nil => rfl
  | cons a as ih =>
    rw [List.cons_append, run_cons, run_cons]
    cases M.step s a with
    | none => rfl
    | some s' => exact ih s'

/-- The recursive form of `AllStates` speaks of the end state of every prefix. -/
theorem allStates_iff (P : σ → Prop) (s : σ) (as : List α) :
    M.AllStates P s as ↔ ∀ pre, pre <+: as → ∀ t, M.run s pre = some t → P t := by
  induction as generalizing s with
  | nil =>
    simp only [AllStates, List.prefix_nil]
    constructor
    · rintro h pre rfl t ht
      cases ht
      exact h
    · intro h
      exact h [] rfl s rfl
  | cons a as ih =>
    simp only [AllStates]
    constructor
    · rintro ⟨hs, hrest⟩ pre hpre t ht
      cases pre with
      | nil => cases ht; exact hs
      | cons b pre =>
        obtain ⟨rfl, hp⟩ := List.cons_prefix_cons.mp hpre
        rw [run_cons] at ht
        obtain ⟨s', hs', ht⟩ := Option.bind_eq_some_iff.mp ht
        exact (ih s').mp (hrest s' hs') pre hp t ht
    · intro h
      refine ⟨h [] (List.nil_prefix) s rfl, ?_⟩
      intro s' hs'
      rw [ih]
      intro pre hpre t ht
      apply h (a :: pre) (List.cons_prefix_cons.mpr ⟨rfl, hpre⟩) t
      rw [run_cons, hs']
      exact ht

/-- A property of all states of a run holds where the run starts. -/
theorem AllStates.first {P : σ → Prop} {s : σ} {as : List α} (h : M.AllStates P s as) : P s := by
  cases as with
  | nil => exact h
  | cons a as => exact h.1

/-- A property of all states of a run holds where the run ends. -/
theorem AllStates.last {P : σ → Prop} {s t : σ} {as : List α}
    (h : M.AllStates P s as) (ht : M.run s as = some t) : P t :=
  (M.allStates_iff P s as).mp h as (List.prefix_refl as) t ht

/-- Induction over runs: what the start state has and every step keeps holds throughout. -/
theorem allStates_of_step {P : σ → Prop}
    (hstep : ∀ s a s', P s → M.step s a = some s' → P s')
    {s : σ} (hs : P s) (as : List α) : M.AllStates P s as := by
  induction as generalizing s with
  | nil => exact hs
  | cons a as ih => exact ⟨hs, fun s' h ↦ ih (hstep s a s' hs h)⟩

/-- What steps that meet a condition keep holds throughout a run of such steps. -/
theorem AllSteps.allStates {P : σ → Prop} {C : σ → α → Prop}
    (hstep : ∀ s a s', P s → C s a → M.step s a = some s' → P s') {s : σ} (hs : P s)
    {as : List α} (h : M.AllSteps C s as) : M.AllStates P s as := by
  induction as generalizing s with
  | nil => exact hs
  | cons a as ih =>
    refine ⟨hs, fun s' hs' ↦ ?_⟩
    obtain ⟨hC, hrest⟩ := h s' hs'
    exact ih (hstep s a s' hs hC hs') hrest

/-- A condition that the actions of a list meet in any state. -/
theorem allSteps_of_forall {C : σ → α → Prop} {as : List α} (h : ∀ a ∈ as, ∀ s, C s a) (s : σ) :
    M.AllSteps C s as := by
  induction as generalizing s with
  | nil => trivial
  | cons a as ih =>
    intro s' _
    exact ⟨h a List.mem_cons_self s, ih (fun b hb ↦ h b (List.mem_cons_of_mem a hb)) s'⟩

/-- What actions of a kind keep is there at the end of a run of them, and if each of them brings a
number down, there are no more of them than that. -/
theorem keeps_of_run {J : σ → Prop} {D : α → Prop} {μ : σ → Nat}
    (hstep : ∀ s a s', J s → D a → M.step s a = some s' → J s' ∧ μ s' < μ s) {s t : σ} (hs : J s)
    {as : List α} (hD : ∀ a ∈ as, D a) (hrun : M.run s as = some t) :
    J t ∧ as.length + μ t ≤ μ s := by
  induction as generalizing s with
  | nil =>
    cases hrun
    exact ⟨hs, Nat.le_of_eq (Nat.zero_add _)⟩
  | cons a as ih =>
    obtain ⟨s', hs', hrun⟩ := Option.bind_eq_some_iff.mp hrun
    obtain ⟨hJ, hlt⟩ := hstep s a s' hs (hD a List.mem_cons_self) hs'
    obtain ⟨ht, hle⟩ := ih hJ (fun b hb ↦ hD b (List.mem_cons_of_mem a hb)) hrun
    refine ⟨ht, ?_⟩
    rw [List.length_cons]
    omega

/-- A weaker property holds wherever a stronger one does. -/
theorem AllStates.imp {P Q : σ → Prop} (hPQ : ∀ s, P s → Q s) {s : σ} {as : List α}
    (h : M.AllStates P s as) : M.AllStates Q s as := by
  induction as generalizing s with
  | nil => exact hPQ s h
  | cons a as ih => exact ⟨hPQ s h.1, fun s' hs' ↦ ih (h.2 s' hs')⟩

/-- An invariant of the steps holds in every reachable state. -/
theorem invariant {P : σ → Prop} (hinit : P M.init)
    (hstep : ∀ s a s', P s → M.step s a = some s' → P s')
    {t : σ} (ht : M.Reachable t) : P t := by
  obtain ⟨as, has⟩ := ht
  exact AllStates.last M (M.allStates_of_step hstep hinit as) has

/-- A step leads from a reachable state to another. -/
theorem Reachable.step {M : Machine σ α} {s s' : σ} {a : α} (h : M.Reachable s)
    (hs : M.step s a = some s') : M.Reachable s' := by
  obtain ⟨as, has⟩ := h
  refine ⟨as ++ [a], ?_⟩
  rw [run_append, has, Option.bind_some, run_cons, hs]
  rfl

/-- Conditions that agree on every step from states with an invariant agree on runs. -/
theorem allSteps_congr {J : σ → Prop} {C D : σ → α → Prop}
    (hCD : ∀ s a s', J s → M.step s a = some s' → (C s a ↔ D s a))
    (hJ : ∀ s a s', J s → M.step s a = some s' → J s') {s : σ} (hs : J s) (as : List α) :
    M.AllSteps C s as ↔ M.AllSteps D s as := by
  induction as generalizing s with
  | nil => exact Iff.rfl
  | cons a as ih =>
    apply forall_congr'
    intro s'
    apply imp_congr_right
    intro hstep
    exact and_congr (hCD s a s' hs hstep) (ih (hJ s a s' hs hstep))

/-- A condition that is stronger on every step from states with an invariant, and that keeps the
invariant, is stronger on runs. -/
theorem AllSteps.imp {J : σ → Prop} {C D : σ → α → Prop}
    (hCD : ∀ s a s', J s → M.step s a = some s' → C s a → D s a)
    (hJ : ∀ s a s', J s → M.step s a = some s' → C s a → J s') {s : σ} (hs : J s) {as : List α}
    (h : M.AllSteps C s as) : M.AllSteps D s as := by
  induction as generalizing s with
  | nil => trivial
  | cons a as ih =>
    intro s' hstep
    obtain ⟨hC, hrest⟩ := h s' hstep
    exact ⟨hCD s a s' hs hstep hC, ih (hJ s a s' hs hstep hC) hrest⟩

/-- Exact conditions on steps. Suppose that, with the help of `J`, a step keeps `P` precisely
when it meets `C`, and that a step meeting `C` keeps `J`. Then the runs all of whose states
have `P` are precisely the runs all of whose steps meet `C`. -/
theorem allStates_iff_allSteps {P J : σ → Prop} {C : σ → α → Prop}
    (hP : ∀ s a s', P s → J s → M.step s a = some s' → (P s' ↔ C s a))
    (hJ : ∀ s a s', P s → J s → C s a → M.step s a = some s' → J s')
    {s : σ} (hPs : P s) (hJs : J s) (as : List α) :
    M.AllStates P s as ↔ M.AllSteps C s as := by
  induction as generalizing s with
  | nil => exact ⟨fun _ ↦ trivial, fun _ ↦ hPs⟩
  | cons a as ih =>
    constructor
    · rintro ⟨-, h⟩ s' hs'
      have hrest := h s' hs'
      have hPs' : P s' := AllStates.first M hrest
      have hC := (hP s a s' hPs hJs hs').mp hPs'
      exact ⟨hC, (ih hPs' (hJ s a s' hPs hJs hC hs')).mp hrest⟩
    · intro h
      refine ⟨hPs, ?_⟩
      intro s' hs'
      obtain ⟨hC, hrest⟩ := h s' hs'
      exact (ih ((hP s a s' hPs hJs hs').mpr hC) (hJ s a s' hPs hJs hC hs')).mpr hrest

end Machine
end Filth.Base
