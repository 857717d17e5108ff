import Mathlib.Data.List.Infix

/-!
# Scanners that are called again

A scanner looks at all the input that has arrived. It is done, or it asks for more and hands
back what it wants to see again. Calling it after each chunk is as good as calling it once
when being done does not depend on what follows, and when it can pick up where it stopped.
-/

namespace Filth.Base

universe u v

/-- What a scanner reports, with its state and the input it has not used up. -/
inductive Outcome (σ : Type u) (α : Type v) where
  | done (s : σ) (rest : List α)
  | more (s : σ) (rest : List α)
  deriving DecidableEq

namespace Outcome

variable {σ : Type u} {α : Type v}

/-- The scanner is done. -/
def isDone : Outcome σ α → Bool
  | done .. => true
  | more .. => false

/-- The state of the scanner. -/
def state : Outcome σ α → σ
  | done s _ => s
  | more s _ => s

/-- The unused input. -/
def rest : Outcome σ α → List α
  | done _ r => r
  | more _ r => r

end Outcome

variable {σ : Type u} {α : Type v} (scan : σ → List α → Outcome σ α)

/-- Call a scanner after each chunk until it is done; what has not arrived is unused. -/
def feed : σ → List α → List (List α) → Outcome σ α
  | s, r, [] => .more s r
  | s, r, c :: cs => match scan s (r ++ c) with
    | .done s' r' => .done s' (r' ++ cs.flatten)
    | .more s' r' => feed s' r' cs

/-- A scanner that has asked for more goes on with the chunks that follow. -/
theorem feed_append_of_more {cs : List (List α)} {s s' : σ} {r r' : List α}
    (h : feed scan s r cs = .more s' r') (ds : List (List α)) :
    feed scan s r (cs ++ ds) = feed scan s' r' ds := by
  induction cs generalizing s r with
  | nil =>
    rw [feed] at h
    cases h
    rfl
  | cons c cs ih =>
    rw [feed] at h
    rw [List.cons_append, feed]
    cases hc : scan s (r ++ c) with
    | done s₁ r₁ =>
      rw [hc] at h
      cases h
    | more s₁ r₁ =>
      rw [hc] at h
      exact ih h

/-- A scanner that is done leaves the chunks that follow. -/
theorem feed_append_of_done {cs : List (List α)} {s s' : σ} {r r' : List α}
    (h : feed scan s r cs = .done s' r') (ds : List (List α)) :
    feed scan s r (cs ++ ds) = .done s' (r' ++ ds.flatten) := by
  induction cs generalizing s r with
  | nil => cases h
  | cons c cs ih =>
    rw [feed] at h
    rw [List.cons_append, feed]
    cases hc : scan s (r ++ c) with
    | done s₁ r₁ =>
      rw [hc] at h
      cases h
      simp
    | more s₁ r₁ =>
      rw [hc] at h
      exact ih h

/-- Feeding one chunk is one call. -/
theorem feed_singleton (s : σ) (r c : List α) : feed scan s r [c] = scan s (r ++ c) := by
  rw [feed]
  cases scan s (r ++ c) with
  | done s₁ r₁ => simp
  | more s₁ r₁ => rfl

/-- Being done does not depend on what follows. -/
def Stable : Prop := ∀ s t s' r, scan s t = .done s' r → ∀ d, scan s (t ++ d) = .done s' (r ++ d)

/-- If the scanner asks for more after `t`, it will go on as if it had waited. -/
def Resumes (s : σ) (t : List α) : Prop :=
  ∀ s' r, scan s t = .more s' r → ∀ d, scan s' (r ++ d) = scan s (t ++ d)

/-- From a state that stands for the input `t`, feeding is one call on all of the input if the
scanner can go on after each chunk. -/
theorem feed_of_resumes (hst : Stable scan) (cs : List (List α)) {s s' : σ} {t r : List α}
    (hr : ∀ d, scan s' (r ++ d) = scan s (t ++ d))
    (h : ∀ p, p <+: cs → p ≠ [] → Resumes scan s (t ++ p.flatten)) (d : List α) :
    feed scan s' r (cs ++ [d]) = scan s (t ++ cs.flatten ++ d) := by
  induction cs generalizing s' r t with
  | nil =>
    rw [List.nil_append, feed_singleton, hr, List.flatten_nil, List.append_nil]
  | cons c cs ih =>
    have hcut : t ++ (c :: cs).flatten ++ d = t ++ c ++ cs.flatten ++ d := by simp
    rw [List.cons_append, feed, hr, hcut]
    cases hc : scan s (t ++ c) with
    | done s₁ r₁ =>
      rw [List.append_assoc, hst s (t ++ c) s₁ r₁ hc]
      simp
    | more s₁ r₁ =>
      apply ih
      · have := h [c] (by simp) (by simp) s₁ r₁ (by simpa using hc)
        simpa using this
      · intro p hp hne
        have := h (c :: p) (List.cons_prefix_cons.mpr ⟨rfl, hp⟩) (List.cons_ne_nil _ _)
        simpa using this

end Filth.Base
