import Filth.Queue.Chain
import Mathlib.Data.List.Induction

/-!
# The lock-free queue is first in, first out

Values are taken out in the order in which their nodes were linked, and a call finds the queue
empty only if it was.
-/

namespace Filth.LockFree

open Base

variable {T V : Type}

/-- The thread that acts. -/
def QueueAct.thread : QueueAct T V → T
  | enq t _ | deq t _ | go t => t

namespace Queue

variable {s s' : Queue T V} {t : T} {a : QueueAct T V}

theorem later_casTail (s : Queue T V) (x y : Addr) : s.Later (s.casTail x y) := by
  unfold casTail
  split
  · exact ⟨List.prefix_rfl, Nat.le_refl _, Nat.le_succ _⟩
  · exact ⟨List.prefix_rfl, Nat.le_refl _, Nat.le_refl _⟩

theorem later_swing (s : Queue T V) (x : Addr) (v : V) : s.Later (s.swing x v) :=
  ⟨List.prefix_rfl, by simp [swing], Nat.le_refl _⟩

/-- As long as a thread waits for its test of `head`, `head` has not been anywhere but where it was
when the thread read it, if it is there now. -/
theorem Sound.head_of_deqTest (h : s.Sound) (h' : s'.Sound) (hl : s.Later s') {wait : Bool}
    {first last : Addr} {next : Option Addr} (hpc : s.pc t = .deqTest wait first last next)
    (hhead : s'.head = first) : s.head = first := by
  have hknows := h.knows t
  rw [hpc] at hknows
  obtain ⟨i, j, k, hi, -, hij, hjt, -⟩ := hknows
  have hi' : i = s'.taken.length :=
    h'.shape.place_unique (hi.of_prefix hl.linked) (hhead ▸ h'.shape.head)
  have htaken := hl.taken
  have hit : i = s.taken.length := by omega
  rw [hit] at hi
  exact Option.some.inj (h.shape.head.symm.trans hi)

/-- There is nothing behind `head`. -/
private theorem Sound.contents_eq_nil (h : s.Sound) {wait : Bool} {first last again : Addr}
    (hpc : s.pc t = .deqNext wait first last again) (hhead : s.head = first) {d : Node V}
    (hd : s.heap[again]? = some d) (hnext : d.next = none) : s.contents = [] := by
  have hknows := h.knows t
  rw [hpc] at hknows
  obtain ⟨i, j, k, hi, hj, -, hij, hjt, -⟩ := hknows
  have hit : i = s.taken.length := h.shape.place_unique (hhead ▸ hi) h.shape.head
  have hlen := h.shape.length_chain hj hd hnext
  have hlinked : s.linked.length = j := by simpa [chain] using hlen
  have hall : s.linked.length ≤ s.taken.length := by omega
  simp [contents, List.drop_eq_nil_of_le hall]

/-- Who reads that a node has no next one reads it of the last one, and `head` is there. -/
theorem Sound.empty_of_deqNext (h : s.Sound) {wait : Bool} {first last again : Addr}
    (hpc : s.pc t = .deqNext wait first last again) {d : Node V} (hd : s.heap[again]? = some d)
    (hnext : d.next = none) : s.contents = [] := by
  have hknows := h.knows t
  rw [hpc] at hknows
  obtain ⟨i, j, k, -, hj, -, -, hjt, -⟩ := hknows
  have hlen := h.shape.length_chain hj hd hnext
  have hall : s.linked.length ≤ s.taken.length := by
    rw [chain, List.length_cons, List.length_map] at hlen
    omega
  simp [contents, List.drop_eq_nil_of_le hall]

theorem contents_casTail (s : Queue T V) (x y : Addr) : (s.casTail x y).contents = s.contents := by
  unfold casTail
  split <;> rfl

theorem Sound.contents_link (h : s.Sound) (last n : Addr) (v : V) :
    (s.link last n v).contents = s.contents ++ [v] := by
  have hle : s.taken.length ≤ s.linked.length := h.shape.taken.length_le
  simp [contents, Queue.link, List.drop_append_of_le_length hle]

/-- Who is about to swing `head` from where it is has read the first value. -/
theorem Sound.contents_swing (h : s.Sound) {wait : Bool} {first next : Addr} {v : V}
    (hpc : s.pc t = .deqSwing wait first next v) (hhead : s.head = first) :
    s.contents = v :: (s.swing next v).contents := by
  have hknows := h.knows t
  rw [hpc] at hknows
  obtain ⟨i, hi, hlinked, -⟩ := hknows
  have hit : i = s.taken.length := h.shape.place_unique (hhead ▸ hi) h.shape.head
  rw [hit] at hlinked
  obtain ⟨hlt, hget⟩ := List.getElem?_eq_some_iff.mp hlinked
  simp [contents, Queue.swing, List.drop_eq_getElem_cons hlt, hget]

variable [DecidableEq T]

/-- A step of a thread changes the queue, and then where the thread is. -/
theorem go_eq (h : s.go t = some s') :
    ∃ s₁ pc, s' = s₁.goto t pc ∧ s.Later s₁ ∧ s₁.pc = s.pc := by
  have hsame : s.Later s := ⟨List.prefix_rfl, Nat.le_refl _, Nat.le_refl _⟩
  cases go_moves h with
  | link => exact ⟨_, _, rfl, later_link _ _ _ _, rfl⟩
  | enqSwing | enqHelp | deqHelp => exact ⟨_, _, rfl, later_casTail _ _ _, pc_casTail _ _ _⟩
  | swing => exact ⟨_, _, rfl, later_swing _ _ _, rfl⟩
  | enqUp | deqDown | waitDown | waitUp =>
    exact ⟨s.setSz _, _, rfl, ⟨hsame.linked, hsame.taken, hsame.swung⟩, rfl⟩
  | deqFree => exact ⟨s.free _, _, rfl, ⟨hsame.linked, hsame.taken, hsame.swung⟩, rfl⟩
  | _ => exact ⟨s, _, rfl, hsame, rfl⟩

/-- A thread gets to the test of `head` by reading a node. -/
private theorem go_deqTest {wait : Bool} {first last : Addr} {next : Option Addr}
    (h : s.go t = some s') (hpc : s'.pc t = .deqTest wait first last next) :
    ∃ again d, s.pc t = .deqNext wait first last again ∧ s.heap[again]? = some d ∧
      d.next = next ∧ s' = s.goto t (.deqTest wait first last next) := by
  cases go_moves h with
  | deqNext hp hd =>
    rw [pc_goto_self] at hpc
    cases hpc
    exact ⟨_, _, hp, hd, rfl, rfl⟩
  | _ =>
    rw [pc_goto_self] at hpc
    cases hpc

/-- It returns with nothing if the test shows that `head` is where it was, and the last. -/
theorem go_nothing (h : s.go t = some s') (hpc : s'.pc t = .idle (some .nothing)) :
    ∃ first, s.pc t = .deqTest false first first none ∧ s.head = first := by
  cases go_moves h with
  | nothing hp hhead => exact ⟨_, hp, hhead⟩
  | _ =>
    rw [pc_goto_self] at hpc
    cases hpc

/-- The others do not move a thread. -/
theorem pc_step_of_ne (ha : a.thread ≠ t) (h : s.step a = some s') : s'.pc t = s.pc t := by
  cases steps_of_step h with
  | enq => exact pc_goto_of_ne _ (Ne.symm ha) _
  | deq => exact pc_goto_of_ne _ (Ne.symm ha) _
  | go hgo =>
    obtain ⟨s₁, pc, rfl, -, hsame⟩ := go_eq hgo
    exact (pc_goto_of_ne s₁ (Ne.symm ha) pc).trans (congrFun hsame t)

private theorem later_step (h : s.step a = some s') : s.Later s' := by
  cases steps_of_step h with
  | enq => exact ⟨List.prefix_rfl, Nat.le_refl _, Nat.le_refl _⟩
  | deq => exact ⟨List.prefix_rfl, Nat.le_refl _, Nat.le_refl _⟩
  | go hgo =>
    obtain ⟨s₁, pc, rfl, hlater, -⟩ := go_eq hgo
    exact ⟨hlater.linked, hlater.taken, hlater.swung⟩

end Queue

section Runs

variable [DecidableEq T] {junk : V} {s₁ s₂ : Queue T V} {t : T} {mid : List (QueueAct T V)}

theorem sound_of_reachable {s : Queue T V} (h : (lockFreeQueue T junk).Reachable s) : s.Sound :=
  Machine.invariant _ (Queue.sound_new junk) (fun _ _ _ hs hstep ↦ hs.step hstep) h

theorem sound_of_run {s s' : Queue T V} {acts : List (QueueAct T V)} (h : s.Sound)
    (hrun : (lockFreeQueue T junk).run s acts = some s') : s'.Sound :=
  Machine.AllStates.last _
    (Machine.allStates_of_step _ (fun _ _ _ hs hstep ↦ hs.step hstep) h acts) hrun

/-- If a thread has found no next node, and `head` has not moved since it read it, there was a
moment since the beginning of the call at which the queue was empty. -/
theorem empty_of_deqTest (h : s₁.Sound) {wait : Bool} (hstart : s₁.pc t = .deqHead wait)
    (hmid : ∀ a ∈ mid, a.thread = t → a = .go t)
    (hrun : (lockFreeQueue T junk).run s₁ mid = some s₂) {first last : Addr}
    (hpc : s₂.pc t = .deqTest wait first last none) (hhead : s₂.head = first) :
    ∃ p s, p <+: mid ∧ (lockFreeQueue T junk).run s₁ p = some s ∧ s.contents = [] := by
  induction mid using List.reverseRecOn generalizing s₂ with
  | nil =>
    cases hrun
    cases hstart.symm.trans hpc
  | append_singleton mid a ih =>
    rw [Machine.run_append] at hrun
    obtain ⟨s, hs, hlast⟩ := Option.bind_eq_some_iff.mp hrun
    rw [Machine.run_cons] at hlast
    obtain ⟨s', hstep, hnil⟩ := Option.bind_eq_some_iff.mp hlast
    cases hnil
    have hsound := sound_of_run h hs
    by_cases hat : a.thread = t
    · cases hmid a (by simp) hat
      obtain ⟨again, d, hbefore, hd, hnext, heq⟩ := Queue.go_deqTest hstep hpc
      have hhead' : s.head = first := by
        rw [heq] at hhead
        exact hhead
      exact ⟨mid, s, List.prefix_append _ _, hs, hsound.contents_eq_nil hbefore hhead' hd hnext⟩
    · have hbefore : s.pc t = .deqTest wait first last none :=
        (Queue.pc_step_of_ne hat hstep).symm.trans hpc
      have hhead' :=
        hsound.head_of_deqTest (hsound.step hstep) (Queue.later_step hstep) hbefore hhead
      obtain ⟨p, s₀, hp, hrun₀, hempty⟩ :=
        ih (fun b hb ↦ hmid b (List.mem_append_left _ hb)) hs hbefore hhead'
      exact ⟨p, s₀, hp.trans (List.prefix_append _ _), hrun₀, hempty⟩

end Runs

/-- At any time, what has been taken out is a beginning of what has been put in; and a call of
`nowait_deq` returns with nothing only if the queue was empty at some moment during the call. -/
theorem fifo (T : Type) [DecidableEq T] {V : Type} (junk : V) :
    (∀ s, (lockFreeQueue T junk).Reachable s →
      s.taken.map Prod.snd <+: s.linked.map Prod.snd) ∧
    (∀ s s₁ s₂ s₃ t mid, (lockFreeQueue T junk).Reachable s → s.step (.deq t false) = some s₁ →
      (∀ a ∈ mid, a.thread = t → a = .go t) → (lockFreeQueue T junk).run s₁ mid = some s₂ →
      s₂.step (.go t) = some s₃ → s₃.pc t = .idle (some .nothing) →
      ∃ p s', p <+: mid ∧ (lockFreeQueue T junk).run s₁ p = some s' ∧ s'.contents = []) := by
  constructor
  · intro s hs
    exact (sound_of_reachable hs).shape.taken.map Prod.snd
  · intro s s₁ s₂ s₃ t mid hs hcall hmid hrun hgo hret
    have hsound := sound_of_reachable hs
    have hstart : s₁.pc t = .deqHead false := by
      cases Queue.steps_of_step hcall
      exact Queue.pc_goto_self s t _
    obtain ⟨first, hpc, hhead⟩ := Queue.go_nothing hgo hret
    exact empty_of_deqTest (hsound.step hcall) hstart hmid hrun hpc hhead

/-- Thread `t` puts 5 in, thread `u` puts 6 in, and `t` takes 5 out. -/
def halfway (t u : T) : List (QueueAct T Nat) :=
  .enq t 5 :: List.replicate 6 (.go t) ++ .enq u 6 :: List.replicate 6 (.go u) ++
    .deq t false :: List.replicate 9 (.go t)

/-- Thread `t` has called `nowait_deq` and reads `head`; `u` takes 6 out; `t` has to begin anew. -/
def overtaken (t u : T) : List (QueueAct T Nat) :=
  .go t :: .deq u false :: List.replicate 9 (.go u) ++ List.replicate 8 (.go t)

theorem fifo_overtaken : ∃ s s₁ s₂ s₃ : Queue (Fin 2) Nat,
    (lockFreeQueue (Fin 2) 0).run (.new 0) (halfway 0 1) = some s ∧
    s.taken.map Prod.snd = [5] ∧ s.linked.map Prod.snd = [5, 6] ∧
    s.taken.map Prod.snd <+: s.linked.map Prod.snd ∧
    s.step (.deq 0 false) = some s₁ ∧ (lockFreeQueue (Fin 2) 0).run s₁ (overtaken 0 1) = some s₂ ∧
    s₂.step (.go 0) = some s₃ ∧ s₃.pc 0 = .idle (some .nothing) ∧
    ∃ p s', p <+: overtaken 0 1 ∧ (lockFreeQueue (Fin 2) 0).run s₁ p = some s' ∧
      s'.contents = [] := by
  obtain ⟨s, hs, hvals⟩ : ∃ s : Queue (Fin 2) Nat,
      (lockFreeQueue (Fin 2) 0).run (.new 0) (halfway 0 1) = some s ∧
      (s.taken.map Prod.snd, s.linked.map Prod.snd,
        (((s.step (.deq 0 false)).bind fun s₁ ↦
          ((lockFreeQueue (Fin 2) 0).run s₁ (overtaken 0 1)).bind fun s₂ ↦
            s₂.step (.go 0)).map fun s₃ ↦ s₃.pc 0)) =
        ([5], [5, 6], some (.idle (some .nothing))) :=
    Option.map_eq_some_iff.mp (by decide +kernel)
  simp only [Prod.mk.injEq, Option.map_eq_some_iff, Option.bind_eq_some_iff] at hvals
  obtain ⟨htaken, hlinked, s₃, ⟨s₁, h₁, s₂, h₂, h₃⟩, hret⟩ := hvals
  have hreach : (lockFreeQueue (Fin 2) 0).Reachable s := ⟨halfway 0 1, hs⟩
  exact ⟨s, s₁, s₂, s₃, hs, htaken, hlinked, (fifo (Fin 2) 0).1 s hreach, h₁, h₂, h₃, hret,
    (fifo (Fin 2) 0).2 s s₁ s₂ s₃ 0 (overtaken 0 1) hreach h₁ (by decide) h₂ h₃ hret⟩

end Filth.LockFree
