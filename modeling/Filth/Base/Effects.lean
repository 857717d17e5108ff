/-!
# Programs with a state and exceptions

A program reads and changes a state, and returns a value or throws. Unlike a value, the state
survives a throw. A relation between states is followed along two runs at once; what a single
run keeps is the case of a run beside itself.
-/

namespace Filth.Base

universe u v w x

/-- A program on states `σ` that may throw an `ε`. -/
def Eff (σ : Type u) (ε : Type v) (α : Type w) := σ → Except ε α × σ

namespace Eff

variable {σ : Type u} {ε : Type v} {α β : Type w}

instance : Monad (Eff.{u, v, w} σ ε) where
  pure a := fun s ↦ (.ok a, s)
  bind x f := fun s ↦ match x s with
    | (.ok a, s') => f a s'
    | (.error e, s') => (.error e, s')

instance : MonadExcept ε (Eff.{u, v, w} σ ε) where
  throw e := fun s ↦ (.error e, s)
  tryCatch x h := fun s ↦ match x s with
    | (.ok a, s') => (.ok a, s')
    | (.error e, s') => h e s'

/-- Look at the state. -/
def gets (g : σ → α) : Eff σ ε α := fun s ↦ (.ok (g s), s)

/-- Change the state. -/
def modify (f : σ → σ) : Eff σ ε PUnit := fun s ↦ (.ok ⟨⟩, f s)

/-- Change the state and return what the change yields. -/
def modifyGet (f : σ → α × σ) : Eff σ ε α := fun s ↦ (.ok (f s).1, (f s).2)

/-- Run a program on a part of the state. -/
def zoom {τ : Type u} (part : σ → τ) (put : τ → σ → σ) (x : Eff τ ε α) : Eff σ ε α :=
  fun s ↦ ((x (part s)).1, put (x (part s)).2 s)

@[simp] theorem pure_apply (a : α) (s : σ) : (pure a : Eff σ ε α) s = (.ok a, s) := rfl

@[simp] theorem throw_apply (e : ε) (s : σ) : (throw e : Eff σ ε α) s = (.error e, s) := rfl

@[simp] theorem gets_apply (g : σ → α) (s : σ) : (gets g : Eff σ ε α) s = (.ok (g s), s) := rfl

@[simp] theorem modify_apply (f : σ → σ) (s : σ) :
    (modify f : Eff σ ε PUnit) s = (.ok ⟨⟩, f s) := rfl

@[simp] theorem modifyGet_apply (f : σ → α × σ) (s : σ) :
    (modifyGet f : Eff σ ε α) s = (.ok (f s).1, (f s).2) := rfl

@[simp] theorem zoom_apply {τ : Type u} (part : σ → τ) (put : τ → σ → σ) (x : Eff τ ε α) (s : σ) :
    zoom part put x s = ((x (part s)).1, put (x (part s)).2 s) := rfl

/-- A sequence goes on where its first part returns. -/
theorem bind_ok {x : Eff σ ε α} {f : α → Eff σ ε β} {s s' : σ} {a : α} (h : x s = (.ok a, s')) :
    (x >>= f) s = f a s' := by
  change (match x s with | (.ok a, s') => f a s' | (.error e, s') => (.error e, s')) = _
  rw [h]

/-- A sequence stops where its first part throws. -/
theorem bind_error {x : Eff σ ε α} {f : α → Eff σ ε β} {s s' : σ} {e : ε}
    (h : x s = (.error e, s')) : (x >>= f) s = (.error e, s') := by
  change (match x s with | (.ok a, s') => f a s' | (.error e, s') => (.error e, s')) = _
  rw [h]

@[simp] theorem gets_bind (g : σ → α) (f : α → Eff σ ε β) (s : σ) :
    (gets g >>= f) s = f (g s) s := rfl

@[simp] theorem modify_bind (g : σ → σ) (f : PUnit → Eff σ ε β) (s : σ) :
    (modify g >>= f) s = f ⟨⟩ (g s) := rfl

@[simp] theorem modifyGet_bind (g : σ → α × σ) (f : α → Eff σ ε β) (s : σ) :
    (modifyGet g >>= f) s = f (g s).1 (g s).2 := rfl

@[simp] theorem throw_bind (e : ε) (f : α → Eff σ ε β) (s : σ) :
    ((throw e : Eff σ ε α) >>= f) s = (.error e, s) := rfl

@[simp] theorem pure_bind (a : α) (f : α → Eff σ ε β) (s : σ) :
    ((pure a : Eff σ ε α) >>= f) s = f a s := rfl

/-- A handler has nothing to do where the program returns. -/
theorem tryCatch_ok {x : Eff σ ε α} {h : ε → Eff σ ε α} {s s' : σ} {a : α}
    (hx : x s = (.ok a, s')) : tryCatch x h s = (.ok a, s') := by
  change (match x s with | (.ok a, s') => (Except.ok a, s') | (.error e, s') => h e s') = _
  rw [hx]

/-- A handler goes on in the state that the throw has left. -/
theorem tryCatch_error {x : Eff σ ε α} {h : ε → Eff σ ε α} {s s' : σ} {e : ε}
    (hx : x s = (.error e, s')) : tryCatch x h s = h e s' := by
  change (match x s with | (.ok a, s') => (Except.ok a, s') | (.error e, s') => h e s') = _
  rw [hx]

/-- A sequence returns where both parts do. -/
theorem bind_eq_ok {x : Eff σ ε α} {f : α → Eff σ ε β} {s t : σ} {b : β}
    (h : (x >>= f) s = (.ok b, t)) : ∃ a s', x s = (.ok a, s') ∧ f a s' = (.ok b, t) := by
  cases hx : x s with
  | mk r s' =>
    cases r with
    | ok a =>
      rw [bind_ok hx] at h
      exact ⟨a, s', rfl, h⟩
    | error e =>
      rw [bind_error hx] at h
      cases h

/-! ## Two runs -/

/-- From states that `K` relates, two runs of the program return or throw the same and end in
states that `K` relates. -/
def Lockstep (K : σ → σ → Prop) (x : Eff σ ε α) : Prop :=
  ∀ s t, K s t → (x s).1 = (x t).1 ∧ K (x s).2 (x t).2

/-- The same, and the program returns. -/
def Calm (K : σ → σ → Prop) (x : Eff σ ε α) : Prop :=
  ∀ s t, K s t → ∃ a s' t', x s = (.ok a, s') ∧ x t = (.ok a, t') ∧ K s' t'

section Lockstep

variable {K : σ → σ → Prop}

theorem Lockstep.pure (a : α) : Lockstep K (Pure.pure a : Eff σ ε α) := fun _ _ h ↦ ⟨rfl, h⟩

theorem Lockstep.throw (e : ε) : Lockstep K (MonadExcept.throw e : Eff σ ε α) :=
  fun _ _ h ↦ ⟨rfl, h⟩

theorem Lockstep.modify {f : σ → σ} (h : ∀ s t, K s t → K (f s) (f t)) :
    Lockstep K (Eff.modify f : Eff σ ε PUnit) := fun s t hst ↦ ⟨rfl, h s t hst⟩

theorem Lockstep.bind {x : Eff σ ε α} {f : α → Eff σ ε β} (hx : Lockstep K x)
    (hf : ∀ a, Lockstep K (f a)) : Lockstep K (x >>= f) := by
  intro s t h
  obtain ⟨hr, hst⟩ := hx s t h
  cases hxs : x s with
  | mk r s' =>
    cases hxt : x t with
    | mk r' t' =>
      rw [hxs, hxt] at hr hst
      change r = r' at hr
      subst hr
      cases r with
      | ok a =>
        rw [bind_ok hxs, bind_ok hxt]
        exact hf a s' t' hst
      | error e =>
        rw [bind_error hxs, bind_error hxt]
        exact ⟨rfl, hst⟩

/-- What both states agree on may be used from then on. -/
theorem Lockstep.gets_bind {g : σ → α} {f : α → Eff σ ε β} (hg : ∀ s t, K s t → g s = g t)
    (hf : ∀ a, Lockstep (fun s t ↦ K s t ∧ g s = a ∧ g t = a) (f a)) :
    Lockstep K (gets g >>= f) := by
  intro s t h
  obtain ⟨hr, hst, -⟩ := hf (g s) s t ⟨h, rfl, (hg s t h).symm⟩
  rw [Eff.gets_bind, Eff.gets_bind, ← hg s t h]
  exact ⟨hr, hst⟩

theorem Lockstep.ite {c : Prop} [Decidable c] {x y : Eff σ ε α} (hx : c → Lockstep K x)
    (hy : ¬ c → Lockstep K y) : Lockstep K (if c then x else y) := by
  split
  · next hc => exact hx hc
  · next hc => exact hy hc

theorem Lockstep.tryCatch {x : Eff σ ε α} {h : ε → Eff σ ε α} (hx : Lockstep K x)
    (hh : ∀ e, Lockstep K (h e)) : Lockstep K (MonadExcept.tryCatch x h) := by
  intro s t hst
  obtain ⟨hr, hst'⟩ := hx s t hst
  cases hxs : x s with
  | mk r s' =>
    cases hxt : x t with
    | mk r' t' =>
      rw [hxs, hxt] at hr hst'
      change r = r' at hr
      subst hr
      cases r with
      | ok a =>
        rw [tryCatch_ok hxs, tryCatch_ok hxt]
        exact ⟨rfl, hst'⟩
      | error e =>
        rw [tryCatch_error hxs, tryCatch_error hxt]
        exact hh e s' t' hst'

/-- A run beside itself: what `K` says of a state and itself is kept. -/
theorem Lockstep.keeps {γ : Type x} {g : σ → γ} {x : Eff σ ε α}
    (h : ∀ b, Lockstep (fun s t ↦ s = t ∧ g s = b) x) (s : σ) : g (x s).2 = g s :=
  (h (g s) s s ⟨rfl, rfl⟩).2.2

theorem Calm.lockstep {x : Eff σ ε α} (h : Calm K x) : Lockstep K x := by
  intro s t hst
  obtain ⟨a, s', t', hs, ht, hst'⟩ := h s t hst
  rw [hs, ht]
  exact ⟨rfl, hst'⟩

/-- A run beside itself, which returns. -/
theorem Calm.keeps {γ : Type x} {g : σ → γ} {x : Eff σ ε α}
    (h : ∀ b, Calm (fun s t ↦ s = t ∧ g s = b) x) (s : σ) :
    ∃ a s', x s = (.ok a, s') ∧ g s' = g s := by
  obtain ⟨a, s', -, hs, -, -, hg⟩ := h (g s) s s ⟨rfl, rfl⟩
  exact ⟨a, s', hs, hg⟩

theorem Calm.pure (a : α) : Calm K (Pure.pure a : Eff σ ε α) :=
  fun s t h ↦ ⟨a, s, t, rfl, rfl, h⟩

theorem Calm.gets {g : σ → α} (hg : ∀ s t, K s t → g s = g t) : Calm K (Eff.gets g : Eff σ ε α) :=
  fun s t h ↦ ⟨g s, s, t, rfl, by rw [gets_apply, hg s t h], h⟩

theorem Calm.modify {f : σ → σ} (h : ∀ s t, K s t → K (f s) (f t)) :
    Calm K (Eff.modify f : Eff σ ε PUnit) :=
  fun s t hst ↦ ⟨⟨⟩, f s, f t, rfl, rfl, h s t hst⟩

theorem Calm.modifyGet {f : σ → α × σ}
    (h : ∀ s t, K s t → (f s).1 = (f t).1 ∧ K (f s).2 (f t).2) :
    Calm K (Eff.modifyGet f : Eff σ ε α) :=
  fun s t hst ↦ ⟨(f s).1, (f s).2, (f t).2, rfl, by rw [modifyGet_apply, (h s t hst).1],
    (h s t hst).2⟩

theorem Calm.bind {x : Eff σ ε α} {f : α → Eff σ ε β} (hx : Calm K x)
    (hf : ∀ a, Calm K (f a)) : Calm K (x >>= f) := by
  intro s t h
  obtain ⟨a, s', t', hs, ht, hst⟩ := hx s t h
  rw [bind_ok hs, bind_ok ht]
  exact hf a s' t' hst

theorem Calm.gets_bind {g : σ → α} {f : α → Eff σ ε β} (hg : ∀ s t, K s t → g s = g t)
    (hf : ∀ a, Calm (fun s t ↦ K s t ∧ g s = a ∧ g t = a) (f a)) : Calm K (Eff.gets g >>= f) := by
  intro s t h
  obtain ⟨b, s', t', hs, ht, hst, -⟩ := hf (g s) s t ⟨h, rfl, (hg s t h).symm⟩
  rw [Eff.gets_bind, Eff.gets_bind, ← hg s t h]
  exact ⟨b, s', t', hs, ht, hst⟩

theorem Calm.ite {c : Prop} [Decidable c] {x y : Eff σ ε α} (hx : c → Calm K x)
    (hy : ¬ c → Calm K y) : Calm K (if c then x else y) := by
  split
  · next hc => exact hx hc
  · next hc => exact hy hc

end Lockstep
/-! ## One run -/

/-- From states with `P`, the program returns a value and a state with `Q`, or it throws and
leaves a state with `E`. -/
def Ensures (P : σ → Prop) (x : Eff σ ε α) (Q : α → σ → Prop) (E : σ → Prop) : Prop :=
  ∀ s, P s → (∀ a s', x s = (.ok a, s') → Q a s') ∧ ∀ e s', x s = (.error e, s') → E s'

/-- `I` holds before and after. -/
abbrev Keeps (I : σ → Prop) (x : Eff σ ε α) : Prop := Ensures I x (fun _ ↦ I) I

section Ensures

variable {P P' I : σ → Prop} {Q Q' : α → σ → Prop} {E E' : σ → Prop}

theorem Ensures.pure {a : α} (h : ∀ s, P s → Q a s) : Ensures P (Pure.pure a : Eff σ ε α) Q E := by
  intro s hs
  constructor
  · intro b s' heq
    cases heq
    exact h s hs
  · intro e s' heq
    cases heq

theorem Ensures.throw {e : ε} (h : ∀ s, P s → E s) :
    Ensures P (MonadExcept.throw e : Eff σ ε α) Q E := by
  intro s hs
  constructor
  · intro b s' heq
    cases heq
  · intro e' s' heq
    cases heq
    exact h s hs

theorem Ensures.gets {g : σ → α} (h : ∀ s, P s → Q (g s) s) :
    Ensures P (Eff.gets g : Eff σ ε α) Q E := by
  intro s hs
  constructor
  · intro b s' heq
    cases heq
    exact h s hs
  · intro e s' heq
    cases heq

theorem Ensures.modifyGet {f : σ → α × σ} (h : ∀ s, P s → Q (f s).1 (f s).2) :
    Ensures P (Eff.modifyGet f : Eff σ ε α) Q E := by
  intro s hs
  constructor
  · intro b s' heq
    cases heq
    exact h s hs
  · intro e s' heq
    cases heq

theorem Ensures.modify {f : σ → σ} {Q : PUnit → σ → Prop} (h : ∀ s, P s → Q ⟨⟩ (f s)) :
    Ensures P (Eff.modify f : Eff σ ε PUnit) Q E := by
  intro s hs
  constructor
  · intro b s' heq
    cases heq
    exact h s hs
  · intro e s' heq
    cases heq

theorem Ensures.bind {x : Eff σ ε α} {f : α → Eff σ ε β} {R : β → σ → Prop}
    (hx : Ensures P x Q E) (hf : ∀ a, Ensures (Q a) (f a) R E) : Ensures P (x >>= f) R E := by
  intro s hs
  obtain ⟨hok, herr⟩ := hx s hs
  cases hxs : x s with
  | mk r s' =>
    cases r with
    | ok a =>
      rw [bind_ok hxs]
      exact hf a s' (hok a s' hxs)
    | error e =>
      rw [bind_error hxs]
      constructor
      · intro b t heq
        cases heq
      · intro e' t heq
        cases heq
        exact herr e s' hxs

theorem Ensures.ite {c : Prop} [Decidable c] {x y : Eff σ ε α} (hx : c → Ensures P x Q E)
    (hy : ¬ c → Ensures P y Q E) : Ensures P (if c then x else y) Q E := by
  split
  · next hc => exact hx hc
  · next hc => exact hy hc

theorem Ensures.tryCatch {x : Eff σ ε α} {h : ε → Eff σ ε α} (hx : Ensures P x Q E')
    (hh : ∀ e, Ensures E' (h e) Q E) : Ensures P (MonadExcept.tryCatch x h) Q E := by
  intro s hs
  obtain ⟨hok, herr⟩ := hx s hs
  cases hxs : x s with
  | mk r s' =>
    cases r with
    | ok a =>
      rw [tryCatch_ok hxs]
      constructor
      · intro b t heq
        cases heq
        exact hok a s' hxs
      · intro e t heq
        cases heq
    | error e =>
      rw [tryCatch_error hxs]
      exact hh e s' (herr e s' hxs)

theorem Ensures.mono {x : Eff σ ε α} (h : Ensures P x Q E) (hP : ∀ s, P' s → P s)
    (hQ : ∀ a s, Q a s → Q' a s) (hE : ∀ s, E s → E' s) : Ensures P' x Q' E' := by
  intro s hs
  obtain ⟨hok, herr⟩ := h s (hP s hs)
  exact ⟨fun a s' heq ↦ hQ a s' (hok a s' heq), fun e s' heq ↦ hE s' (herr e s' heq)⟩

end Ensures

/-- From states with `I`, the program returns `a` and leaves a state with `I`. -/
def Yields (I : σ → Prop) (x : Eff σ ε α) (a : α) : Prop := ∀ s, I s → ∃ s', x s = (.ok a, s') ∧ I s'

section Yields

variable {I : σ → Prop} {a : α} {b : β}

theorem Yields.pure (a : α) : Yields I (Pure.pure a : Eff σ ε α) a := fun s h ↦ ⟨s, rfl, h⟩

theorem Yields.gets {g : σ → α} (h : ∀ s, I s → g s = a) : Yields I (Eff.gets g : Eff σ ε α) a :=
  fun s hs ↦ ⟨s, by rw [gets_apply, h s hs], hs⟩

theorem Yields.modify {f : σ → σ} (h : ∀ s, I s → I (f s)) :
    Yields I (Eff.modify f : Eff σ ε PUnit) ⟨⟩ := fun s hs ↦ ⟨f s, rfl, h s hs⟩

theorem Yields.modifyGet {f : σ → α × σ} (h : ∀ s, I s → (f s).1 = a ∧ I (f s).2) :
    Yields I (Eff.modifyGet f : Eff σ ε α) a := by
  intro s hs
  obtain ⟨ha, hI⟩ := h s hs
  exact ⟨(f s).2, by rw [modifyGet_apply, ha], hI⟩

theorem Yields.bind {x : Eff σ ε α} {f : α → Eff σ ε β} (hx : Yields I x a)
    (hf : Yields I (f a) b) : Yields I (x >>= f) b := by
  intro s hs
  obtain ⟨s', hxs, hs'⟩ := hx s hs
  obtain ⟨s'', hfs, hs''⟩ := hf s' hs'
  exact ⟨s'', (bind_ok hxs).trans hfs, hs''⟩

/-- Both branches are followed at once. -/
theorem Yields.ite {c : Prop} [Decidable c] {x y : Eff σ ε α} {a a' : α} (hx : c → Yields I x a)
    (hy : ¬ c → Yields I y a') : Yields I (if c then x else y) (if c then a else a') := by
  split
  · next hc => exact hx hc
  · next hc => exact hy hc

end Yields
end Eff
end Filth.Base
