import Filth.Base.Simulation

/-!
# What can be seen of runs

What a run does for others to see is a list of events. One machine implements another if whatever
can be seen of a run of the first can be seen of a run of the second. It is enough to say for which
states of the second a state of the first may stand, and to trace these back from step to step: so
what the second has done may be settled later than it is done.
-/

namespace Filth.Base.Machine

universe u v w x y

variable {σ : Type u} {α : Type v} {τ : Type w} {β : Type x} {ε : Type y}

/-- What can be seen of a run, if some events can be seen of each step. -/
def history (M : Machine σ α) (see : σ → α → σ → List ε) : σ → List α → List ε
  | _, [] => []
  | s, a :: as =>
    match M.step s a with
    | none => []
    | some s' => see s a s' ++ history M see s' as

/-- A run leads from one state to another, and these are the events that can be seen of it. -/
def Shows (M : Machine σ α) (see : σ → α → σ → List ε) (s s' : σ) (es : List ε) : Prop :=
  ∃ as, M.run s as = some s' ∧ M.history see s as = es

section History

variable {M : Machine σ α} {see : σ → α → σ → List ε} {s s₁ s' : σ} {a : α} {as : List α}
  {es fs : List ε}

private theorem history_cons (h : M.step s a = some s') :
    M.history see s (a :: as) = see s a s' ++ M.history see s' as := by
  rw [history, h]

private theorem history_append (h : M.run s as = some s') (bs : List α) :
    M.history see s (as ++ bs) = M.history see s as ++ M.history see s' bs := by
  induction as generalizing s with
  | nil =>
    cases h
    rfl
  | cons a as ih =>
    rw [run_cons] at h
    obtain ⟨s₁, hs₁, h⟩ := Option.bind_eq_some_iff.mp h
    rw [List.cons_append, history_cons hs₁, history_cons hs₁, ih h, List.append_assoc]

theorem Shows.refl (M : Machine σ α) (see : σ → α → σ → List ε) (s : σ) : M.Shows see s s [] :=
  ⟨[], rfl, rfl⟩

theorem Shows.of_step (h : M.step s a = some s') : M.Shows see s s' (see s a s') := by
  refine ⟨[a], ?_, ?_⟩
  · rw [run_cons, h]
    rfl
  · rw [history_cons h]
    exact List.append_nil _

theorem Shows.trans (h : M.Shows see s s₁ es) (h' : M.Shows see s₁ s' fs) :
    M.Shows see s s' (es ++ fs) := by
  obtain ⟨as, has, rfl⟩ := h
  obtain ⟨bs, hbs, rfl⟩ := h'
  refine ⟨as ++ bs, ?_, history_append has bs⟩
  rw [run_append, has]
  exact hbs

end History

/-- `A s t` says that `s` may stand for `t`. Whatever state of the second machine a state stands for
after a step, the second machine can have come to it from one that the state stood for before the
step, and only what can be seen of the step can be seen of that. -/
structure Implements (M : Machine σ α) (N : Machine τ β) (see : σ → α → σ → List ε)
    (seeN : τ → β → τ → List ε) (A : σ → τ → Prop) : Prop where
  init : ∀ t, A M.init t → t = N.init
  step : ∀ s a s' t', M.Reachable s → M.step s a = some s' → A s' t' →
    ∃ t, A s t ∧ N.Shows seeN t t' (see s a s')

/-- Whatever state of the second machine a run may end in, there is a run of that machine which ends
there, begins where the first may begin, and of which the same can be seen. -/
theorem Implements.shows_between {M : Machine σ α} {N : Machine τ β} {see : σ → α → σ → List ε}
    {seeN : τ → β → τ → List ε} {A : σ → τ → Prop} (h : Implements M N see seeN A) {s s' : σ}
    {t' : τ} {as : List α} (hs : M.Reachable s) (hrun : M.run s as = some s') (hA : A s' t') :
    ∃ t, A s t ∧ N.Shows seeN t t' (M.history see s as) := by
  induction as generalizing s with
  | nil =>
    cases hrun
    exact ⟨t', hA, .refl N seeN _⟩
  | cons a as ih =>
    rw [run_cons] at hrun
    obtain ⟨s₁, hstep, hrun⟩ := Option.bind_eq_some_iff.mp hrun
    obtain ⟨t₁, hA₁, hrest⟩ := ih (hs.step hstep) hrun
    obtain ⟨t, hA₀, hfirst⟩ := h.step s a s₁ t₁ hs hstep hA₁
    rw [history_cons hstep]
    exact ⟨t, hA₀, hfirst.trans hrest⟩

/-- A run from the start is answered by one from the start. -/
theorem Implements.shows {M : Machine σ α} {N : Machine τ β} {see : σ → α → σ → List ε}
    {seeN : τ → β → τ → List ε} {A : σ → τ → Prop} (h : Implements M N see seeN A) {s : σ} {t : τ}
    {as : List α} (hrun : M.run M.init as = some s) (hA : A s t) :
    N.Shows seeN N.init t (M.history see M.init as) := by
  obtain ⟨t₀, hA₀, hshows⟩ := h.shows_between ⟨[], rfl⟩ hrun hA
  obtain rfl := h.init t₀ hA₀
  exact hshows

/-- Every step of the first machine can be made by the second, in steps of which the same can be
seen. -/
structure Simulates (M : Machine σ α) (N : Machine τ β) (see : σ → α → σ → List ε)
    (seeN : τ → β → τ → List ε) (R : σ → τ → Prop) : Prop where
  init : R M.init N.init
  step : ∀ s a s' t, R s t → M.step s a = some s' → ∃ t', R s' t' ∧ N.Shows seeN t t' (see s a s')

/-- So can every run. -/
theorem Simulates.shows {M : Machine σ α} {N : Machine τ β} {see : σ → α → σ → List ε}
    {seeN : τ → β → τ → List ε} {R : σ → τ → Prop} (h : Simulates M N see seeN R) {s s' : σ} {t : τ}
    {as : List α} (hR : R s t) (hrun : M.run s as = some s') :
    ∃ t', R s' t' ∧ N.Shows seeN t t' (M.history see s as) := by
  induction as generalizing s t with
  | nil =>
    cases hrun
    exact ⟨t, hR, .refl N seeN _⟩
  | cons a as ih =>
    rw [run_cons] at hrun
    obtain ⟨s₁, hstep, hrun⟩ := Option.bind_eq_some_iff.mp hrun
    obtain ⟨t₁, hR₁, hfirst⟩ := h.step s a s₁ t hR hstep
    obtain ⟨t', hR', hrest⟩ := ih hR₁ hrun
    rw [history_cons hstep]
    exact ⟨t', hR', hfirst.trans hrest⟩

/-- Of two machines that go step by step the same can be seen. -/
theorem Follows.history {M : Machine σ α} {N : Machine τ β} {C : σ → α → Prop} {R : σ → τ → Prop}
    {f : α → β} {see : σ → α → σ → List ε} {seeN : τ → β → τ → List ε}
    (h : Follows M N C R f)
    (hsee : ∀ s t a s' t', R s t → R s' t' → M.step s a = some s' → see s a s' = seeN t (f a) t')
    {s s' : σ} {t : τ} {as : List α} (hR : R s t) (hC : M.AllSteps C s as)
    (hrun : M.run s as = some s') :
    N.history seeN t (as.map f) = M.history see s as := by
  induction as generalizing s t with
  | nil => rfl
  | cons a as ih =>
    rw [run_cons] at hrun
    obtain ⟨s₁, hs₁, hrun⟩ := Option.bind_eq_some_iff.mp hrun
    obtain ⟨ha, has⟩ := hC s₁ hs₁
    obtain ⟨t₁, ht₁, hR₁⟩ := h.step s t a s₁ hR ha hs₁
    rw [List.map_cons, history_cons ht₁, history_cons hs₁, ih hR₁ has hrun,
      hsee s t a s₁ t₁ hR hR₁ hs₁]

end Filth.Base.Machine

namespace Filth.Base

/-! ### Clients -/

universe u v w x y z k

/-- Who uses a machine: it has steps of its own, and takes part in the events of the machine. -/
structure Client (κ : Type k) (γ : Type z) (ε : Type y) where
  init : κ
  step : κ → γ → Option κ
  on : κ → ε → Option κ

namespace Machine

variable {σ : Type u} {α : Type v} {τ : Type w} {β : Type x} {ε : Type y} {κ : Type k} {γ : Type z}

/-- A machine and who uses it. -/
def usedBy (M : Machine σ α) (see : σ → α → σ → List ε) (K : Client κ γ ε) :
    Machine (σ × κ) (α ⊕ γ) where
  init := (M.init, K.init)
  step
    | (s, l), .inl a =>
      (M.step s a).bind fun s' ↦ ((see s a s').foldlM K.on l).map fun l' ↦ (s', l')
    | (s, l), .inr c => (K.step l c).map fun l' ↦ (s, l')

/-- Of both together one sees what the client does on its own. -/
def seeClient {δ : Type*} (see : κ → γ → κ → List δ) : σ × κ → α ⊕ γ → σ × κ → List δ
  | _, .inl _, _ => []
  | s, .inr c, s' => see s.2 c s'.2

section UsedBy

variable {M : Machine σ α} {N : Machine τ β} {see : σ → α → σ → List ε}
  {seeN : τ → β → τ → List ε} {K : Client κ γ ε} {A : σ → τ → Prop} {δ : Type*}
  {seeK : κ → γ → κ → List δ} {s s' : σ} {t t' : τ} {l l' : κ} {a : α} {c : γ}

theorem usedBy_inl {p : σ × κ} : (M.usedBy see K).step (s, l) (.inl a) = some p ↔
    M.step s a = some p.1 ∧ (see s a p.1).foldlM K.on l = some p.2 := by
  obtain ⟨s', l'⟩ := p
  simp only [usedBy, Option.bind_eq_some_iff, Option.map_eq_some_iff, Prod.mk.injEq]
  constructor
  · rintro ⟨_, hs, _, hl, rfl, rfl⟩
    exact ⟨hs, hl⟩
  · rintro ⟨hs, hl⟩
    exact ⟨s', hs, l', hl, rfl, rfl⟩

theorem usedBy_inr {p : σ × κ} : (M.usedBy see K).step (s, l) (.inr c) = some p ↔
    s = p.1 ∧ K.step l c = some p.2 := by
  obtain ⟨s', l'⟩ := p
  simp only [usedBy, Option.map_eq_some_iff, Prod.mk.injEq]
  constructor
  · rintro ⟨_, hl, rfl, rfl⟩
    exact ⟨rfl, hl⟩
  · rintro ⟨hs, hl⟩
    exact ⟨l', hl, hs, rfl⟩

/-- The machine is where it can have been with somebody else. -/
private theorem reachable_of_usedBy {p : σ × κ} (h : (M.usedBy see K).Reachable p) :
    M.Reachable p.1 := by
  refine invariant (M.usedBy see K) (P := fun p ↦ M.Reachable p.1) ⟨[], rfl⟩ ?_ h
  rintro ⟨s, l⟩ a ⟨s', l'⟩ hs hstep
  cases a with
  | inl a => exact hs.step (usedBy_inl.mp hstep).1
  | inr c =>
    obtain ⟨rfl, -⟩ := usedBy_inr.mp hstep
    exact hs

/-- A client takes part in what can be seen of a run. -/
private theorem shows_usedBy {es : List ε} (h : N.Shows seeN t t' es)
    (hon : es.foldlM K.on l = some l') :
    (N.usedBy seeN K).Shows (seeClient seeK) (t, l) (t', l') [] := by
  obtain ⟨bs, hbs, rfl⟩ := h
  induction bs generalizing t l with
  | nil =>
    cases hbs
    cases hon
    exact .refl _ _ _
  | cons b bs ih =>
    rw [run_cons] at hbs
    obtain ⟨t₁, ht₁, hbs⟩ := Option.bind_eq_some_iff.mp hbs
    rw [history_cons ht₁, List.foldlM_append] at hon
    obtain ⟨l₁, hl₁, hon⟩ := Option.bind_eq_some_iff.mp hon
    have hfirst : (N.usedBy seeN K).step (t, l) (.inl b) = some (t₁, l₁) :=
      usedBy_inl.mpr ⟨ht₁, hl₁⟩
    exact (Shows.of_step hfirst).trans (ih hbs hon)

/-- Who uses a machine cannot tell it from one that it implements. -/
theorem Implements.usedBy (h : Implements M N see seeN A) (K : Client κ γ ε)
    (seeK : κ → γ → κ → List δ) :
    Implements (M.usedBy see K) (N.usedBy seeN K) (seeClient seeK) (seeClient seeK)
      (fun p q ↦ A p.1 q.1 ∧ p.2 = q.2) where
  init := by
    rintro ⟨t, l⟩ ⟨hA, rfl⟩
    rw [h.init t hA]
    rfl
  step := by
    rintro ⟨s, l⟩ a ⟨s', l'⟩ ⟨t', m⟩ hreach hstep ⟨hA, rfl⟩
    cases a with
    | inl a =>
      obtain ⟨ha, hon⟩ := usedBy_inl.mp hstep
      obtain ⟨t, hA', hshows⟩ := h.step s a s' t' (reachable_of_usedBy hreach) ha hA
      exact ⟨(t, l), ⟨hA', rfl⟩, shows_usedBy hshows hon⟩
    | inr c =>
      obtain ⟨rfl, hc⟩ := usedBy_inr.mp hstep
      have hsame : (N.usedBy seeN K).step (t', l) (.inr c) = some (t', l') :=
        usedBy_inr.mpr ⟨rfl, hc⟩
      exact ⟨(t', l), ⟨hA, rfl⟩, .of_step hsame⟩

end UsedBy

end Machine

end Filth.Base
