import Filth.Queue.Fifo

/-!
# Deleted nodes of the lock-free queue

A dequeueing call deletes the node that was the first one, `src/LockFreeQueue.hpp:109–132`. The
comment there argues that nobody follows a pointer to that node. What another call reads from `head`
or `tail` is not deleted at that time, and a test that fails keeps it from following what it has
read too long ago; but between the reading, or the test, and the next step a node can be deleted.
-/

namespace Filth.LockFree

open Base

variable {T V : Type}

/-- The pointer that is followed in the next step. -/
def Pc.follows : Pc V → Option (Option Addr)
  | enqNext _ _ last | enqLink _ _ last => some (some last)
  | deqNext _ _ _ again => some (some again)
  | deqRead _ _ next => some next
  | _ => none

/-- The thread has swung `head` from this node, and has not deleted it. -/
def Pc.spent : Pc V → Option Addr
  | deqDown _ first _ | deqFree _ first _ => some first
  | _ => none

namespace Queue

/-- The heap as a map, from which `delete` takes a node out. -/
def node? (s : Queue T V) (x : Addr) : Option (Node V) := s.heap[x]?.filter fun d ↦ !d.freed

/-- Whatever is followed is there. -/
def Found (s : Queue T V) : Prop :=
  ∀ t p, (s.pc t).follows = some p → ∃ x d, p = some x ∧ s.node? x = some d

/-- A node is not deleted while a thread is about to follow a pointer to it. -/
def Unfollowed (s : Queue T V) : QueueAct T V → Prop
  | .go t =>
    match s.pc t with
    | .deqFree _ first _ => ∀ u, (s.pc u).follows ≠ some (some first)
    | _ => True
  | _ => True

/-- What has been deleted, or is going to be, is in the chain before `head`. -/
structure Reclaimed (s : Queue T V) : Prop where
  freed : ∀ x d, s.heap[x]? = some d → d.freed = true → ∃ k, k < s.taken.length ∧ s.At k x
  spent : ∀ t x, (s.pc t).spent = some x → ∃ k, k < s.taken.length ∧ s.At k x

variable {s s₁ s' : Queue T V} {t : T} {k : Nat} {x y : Addr} {d : Node V} {pc : Pc V}

private theorem node?_eq_some_iff : s.node? x = some d ↔ s.heap[x]? = some d ∧ d.freed = false := by
  rw [node?, Option.filter_eq_some_iff]
  simp

/-! ### Changes of the heap -/

/-- A node is deleted: it is not there any more, and the others are as they were. -/
theorem node?_free (s : Queue T V) (x y : Addr) :
    (s.free x).node? y = if y = x then none else s.node? y := by
  unfold node? free
  rw [List.getElem?_modify]
  split
  · next h =>
    subst h
    cases s.heap[x]? <;> simp
  · next h =>
    have hne : y ≠ x := Ne.symm h
    cases s.heap[y]? <;> simp [hne]

/-- Between two states nothing has been deleted. -/
structure Undeleted (s s₁ : Queue T V) : Prop where
  there : ∀ x d, s.node? x = some d → ∃ e, s₁.node? x = some e
  freed : ∀ (x : Addr) (d : Node V), s₁.heap[x]? = some d → d.freed = true →
    ∃ e : Node V, s.heap[x]? = some e ∧ e.freed = true

private theorem Undeleted.of_heap (h : s₁.heap = s.heap) : s.Undeleted s₁ := by
  refine ⟨fun x d hx ↦ ⟨d, ?_⟩, fun x d hx hfreed ↦ ⟨d, ?_, hfreed⟩⟩
  · rwa [node?, h]
  · rwa [← h]

private theorem undeleted_casTail (s : Queue T V) (x y : Addr) : s.Undeleted (s.casTail x y) := by
  apply Undeleted.of_heap
  unfold casTail
  split <;> rfl

/-- Linking changes another field of one node. -/
theorem undeleted_link (s : Queue T V) (last n : Addr) (v : V) :
    s.Undeleted (s.link last n v) := by
  have hcases (x : Addr) : (s.link last n v).heap[x]? = s.heap[x]? ∨ ∃ d, s.heap[x]? = some d ∧
      (s.link last n v).heap[x]? = some { d with next := some n } := by
    by_cases hx : last = x
    · subst hx
      cases hd : s.heap[last]? with
      | none => exact .inl (by simp [link, hd])
      | some d => exact .inr ⟨d, rfl, heap_link_self hd n v⟩
    · exact .inl (heap_link_of_ne s n v hx)
  refine ⟨fun x d hx ↦ ?_, fun x d hx hfreed ↦ ?_⟩
  · obtain ⟨hd, hfreed⟩ := node?_eq_some_iff.mp hx
    rcases hcases x with hsame | ⟨e, he, hnew⟩
    · exact ⟨d, node?_eq_some_iff.mpr ⟨hsame.trans hd, hfreed⟩⟩
    · cases hd.symm.trans he
      exact ⟨_, node?_eq_some_iff.mpr ⟨hnew, hfreed⟩⟩
  · rcases hcases x with hsame | ⟨e, he, hnew⟩
    · exact ⟨d, hsame.symm.trans hx, hfreed⟩
    · cases hx.symm.trans hnew
      exact ⟨e, he, hfreed⟩

/-- A new node is not a deleted one. -/
theorem undeleted_alloc (s : Queue T V) (v : V) : s.Undeleted (s.alloc v) := by
  refine ⟨fun x d hx ↦ ?_, fun x d hx hfreed ↦ ?_⟩
  · obtain ⟨hd, hfreed⟩ := node?_eq_some_iff.mp hx
    have hd' := getElem?_of_prefix (List.prefix_append s.heap [⟨v, none, false⟩]) hd
    exact ⟨d, node?_eq_some_iff.mpr ⟨hd', hfreed⟩⟩
  · rw [alloc, List.getElem?_append] at hx
    split at hx
    · exact ⟨d, hx, hfreed⟩
    · rw [List.getElem?_singleton] at hx
      split at hx
      · cases hx
        cases hfreed
      · cases hx

/-! ### Where deleted nodes are -/

/-- What has not been passed by `head` is there. -/
theorem Reclaimed.live (h : s.Reclaimed) (hs : s.Sound) (hk : s.At k x)
    (hle : s.taken.length ≤ k) : ∃ d, s.node? x = some d := by
  obtain ⟨d, hd, -⟩ := hs.shape.next k x hk
  refine ⟨d, node?_eq_some_iff.mpr ⟨hd, ?_⟩⟩
  by_contra hfreed
  obtain ⟨j, hj, hat⟩ := h.freed x d hd (by simpa using hfreed)
  have hjk := hs.shape.place_unique hat hk
  omega

variable [DecidableEq T]

/-- A thread goes on, and nothing is deleted. -/
theorem Reclaimed.goto (h : s.Reclaimed) (hpc : s₁.pc = s.pc) (hl : s.Later s₁)
    (hu : s.Undeleted s₁)
    (hspent : ∀ x, pc.spent = some x → ∃ k, k < s₁.taken.length ∧ s₁.At k x) :
    (s₁.goto t pc).Reclaimed := by
  have hlater {x : Addr} (hx : ∃ k, k < s.taken.length ∧ s.At k x) :
      ∃ k, k < s₁.taken.length ∧ s₁.At k x := by
    obtain ⟨k, hk, hat⟩ := hx
    exact ⟨k, Nat.lt_of_lt_of_le hk hl.taken, hat.of_prefix hl.linked⟩
  constructor
  · intro x d hd hfreed
    obtain ⟨e, he, hold⟩ := hu.freed x d hd hfreed
    exact hlater (h.freed x e he hold)
  · intro u x hx
    by_cases hut : u = t
    · subst hut
      rw [pc_goto_self] at hx
      exact hspent x hx
    · rw [pc_goto_of_ne s₁ hut, hpc] at hx
      exact hlater (h.spent u x hx)

/-- The node that a thread has to delete is deleted. -/
theorem Reclaimed.free (h : s.Reclaimed) (hp : (s.pc t).spent = some x) (hpc : pc.spent = none) :
    ((s.free x).goto t pc).Reclaimed := by
  constructor
  · intro y d hd hfreed
    by_cases hyx : y = x
    · subst hyx
      exact h.spent t y hp
    · have hsame : (s.free x).heap[y]? = s.heap[y]? := by simp [Queue.free, Ne.symm hyx]
      exact h.freed y d (hsame.symm.trans hd) hfreed
  · intro u y hy
    by_cases hut : u = t
    · subst hut
      rw [pc_goto_self, hpc] at hy
      cases hy
    · rw [pc_goto_of_ne _ hut] at hy
      exact h.spent u y hy

/-- A step of a thread in a call. -/
theorem Reclaimed.go (h : s.Reclaimed) (hs : s.Sound) (hgo : s.go t = some s') :
    s'.Reclaimed := by
  have hsame : s.Later s := ⟨List.prefix_rfl, Nat.le_refl _, Nat.le_refl _⟩
  cases go_moves hgo with
  | enqTail | enqNext | enqLast | enqLags | enqMoved | linkLost | deqHead | deqTail | deqAgain
  | deqNext | nothing | sleep | deqLags | deqFound | deqMoved | deqRead | swingLost =>
    exact h.goto rfl hsame (.of_heap rfl) nofun
  | enqSwing | enqHelp | deqHelp =>
    exact h.goto (pc_casTail _ _ _) (later_casTail _ _ _) (undeleted_casTail _ _ _) nofun
  | link => exact h.goto rfl (later_link _ _ _ _) (undeleted_link _ _ _ _) nofun
  | enqUp | waitDown | waitUp =>
    exact h.goto rfl ⟨List.prefix_rfl, Nat.le_refl _, Nat.le_refl _⟩ (.of_heap rfl) nofun
  | @swing wait first next v hp hhead =>
    refine h.goto rfl (later_swing _ _ _) (.of_heap rfl) fun x hx ↦ ?_
    cases hx
    have hlen : (s.swing next v).taken.length = s.taken.length + 1 := List.length_append
    exact ⟨s.taken.length, by omega, hhead ▸ hs.shape.head⟩
  | @deqDown wait first v hp =>
    refine h.goto rfl ⟨List.prefix_rfl, Nat.le_refl _, Nat.le_refl _⟩ (.of_heap rfl) fun x hx ↦ ?_
    exact h.spent t x (by rw [hp]; exact hx)
  | deqFree hp => exact h.free (by rw [hp]; rfl) rfl

theorem Reclaimed.step {a : QueueAct T V} (h : s.Reclaimed) (hs : s.Sound)
    (hstep : s.step a = some s') : s'.Reclaimed := by
  cases steps_of_step hstep with
  | enq =>
    exact h.goto rfl ⟨List.prefix_rfl, Nat.le_refl _, Nat.le_refl _⟩ (undeleted_alloc s _) nofun
  | deq => exact h.goto rfl ⟨List.prefix_rfl, Nat.le_refl _, Nat.le_refl _⟩ (.of_heap rfl) nofun
  | go hgo => exact h.go hs hgo

omit [DecidableEq T] in
/-- At the start nothing is deleted. -/
theorem reclaimed_new (junk : V) : (new junk : Queue T V).Reclaimed := by
  refine ⟨fun x d hd hfreed ↦ ?_, nofun⟩
  obtain rfl : d = { t := junk, next := none, freed := false } := by
    simpa [new] using List.mem_of_getElem? hd
  cases hfreed

/-! ### Following pointers -/

/-- A thread goes on, nothing is deleted, and what it will follow is there. -/
theorem Found.goto (h : s.Found) (hpc : s₁.pc = s.pc) (hu : s.Undeleted s₁)
    (hp : ∀ p, pc.follows = some p → ∃ x d, p = some x ∧ s.node? x = some d) :
    (s₁.goto t pc).Found := by
  have hkept {p : Option Addr} (hx : ∃ x d, p = some x ∧ s.node? x = some d) :
      ∃ x d, p = some x ∧ s₁.node? x = some d := by
    obtain ⟨x, d, hx, hd⟩ := hx
    obtain ⟨e, he⟩ := hu.there x d hd
    exact ⟨x, e, hx, he⟩
  intro u p hu
  by_cases hut : u = t
  · subst hut
    rw [pc_goto_self] at hu
    exact hkept (hp p hu)
  · rw [pc_goto_of_ne s₁ hut, hpc] at hu
    exact hkept (h u p hu)

/-- A thread deletes a node. -/
private theorem found_free_iff (h : s.Found) (hp : (s.pc t).follows = none)
    (hpc : pc.follows = none) :
    ((s.free x).goto t pc).Found ↔ ∀ u, (s.pc u).follows ≠ some (some x) := by
  constructor
  · intro hfound u hu
    have hut : u ≠ t := by
      rintro rfl
      cases hp.symm.trans hu
    have hu' : (((s.free x).goto t pc).pc u).follows = some (some x) := by
      rwa [pc_goto_of_ne _ hut]
    obtain ⟨y, d, hy, hd⟩ := hfound u _ hu'
    cases hy
    have hgone : (s.free x).node? x = none := by rw [node?_free, if_pos rfl]
    cases hgone.symm.trans hd
  · intro hnone u p hu
    by_cases hut : u = t
    · subst hut
      rw [pc_goto_self, hpc] at hu
      cases hu
    · rw [pc_goto_of_ne _ hut] at hu
      obtain ⟨y, d, rfl, hd⟩ := h u p hu
      have hyx : y ≠ x := by
        rintro rfl
        exact hnone u hu
      exact ⟨y, d, rfl, (node?_free s x y).trans ((if_neg hyx).trans hd)⟩

/-- A step of a thread in a call. -/
private theorem found_go (h : s.Found) (hr : s.Reclaimed) (hs : s.Sound) (hgo : s.go t = some s') :
    s'.Found ↔ s.Unfollowed (.go t) := by
  have hhead := hr.live hs hs.shape.head (Nat.le_refl _)
  have htail := hr.live hs hs.shape.tail hs.shape.order
  have hs' := (hs.go hgo).knows t
  cases go_moves hgo with
  | enqTail hp =>
    refine iff_of_true (h.goto rfl (.of_heap rfl) fun p hf ↦ ?_) (by simp only [Unfollowed, hp])
    cases hf
    exact ⟨s.tail, htail.choose, rfl, htail.choose_spec⟩
  | @enqLast v n last hp heq =>
    refine iff_of_true (h.goto rfl (.of_heap rfl) fun p hf ↦ ?_) (by simp only [Unfollowed, hp])
    cases hf
    exact ⟨last, htail.choose, rfl, heq ▸ htail.choose_spec⟩
  | deqAgain hp =>
    refine iff_of_true (h.goto rfl (.of_heap rfl) fun p hf ↦ ?_) (by simp only [Unfollowed, hp])
    cases hf
    exact ⟨s.head, hhead.choose, rfl, hhead.choose_spec⟩
  | @deqFound wait first last next hp heq hne =>
    refine iff_of_true (h.goto rfl (.of_heap rfl) fun p hf ↦ ?_) (by simp only [Unfollowed, hp])
    cases hf
    -- the node behind `head` has not been passed by `head`
    rw [pc_goto_self] at hs'
    obtain ⟨i, x, hx, hi, hnext, -⟩ := hs'
    have hplace : i = s.taken.length := hs.shape.place_unique (heq ▸ hi) hs.shape.head
    obtain ⟨d, hd⟩ := hr.live hs hnext (by omega)
    exact ⟨x, d, hx, hd⟩
  | deqFree hp =>
    rw [found_free_iff h (by rw [hp]; rfl) rfl]
    simp only [Unfollowed, hp]
  | enqSwing hp | enqHelp hp | deqHelp hp =>
    refine iff_of_true (h.goto (pc_casTail _ _ _) (undeleted_casTail _ _ _) nofun) ?_
    simp only [Unfollowed, hp]
  | link hp =>
    refine iff_of_true (h.goto rfl (undeleted_link _ _ _ _) nofun) ?_
    simp only [Unfollowed, hp]
  | enqNext hp | enqLags hp | enqMoved hp | linkLost hp | enqUp hp | deqHead hp | deqTail hp
  | deqNext hp | nothing hp | sleep hp | deqLags hp | deqMoved hp | deqRead hp | swing hp
  | swingLost hp | deqDown hp | waitDown hp | waitUp hp =>
    refine iff_of_true (h.goto rfl (.of_heap rfl) nofun) ?_
    simp only [Unfollowed, hp]

/-- Any step. -/
private theorem found_step {a : QueueAct T V} (h : s.Found) (hr : s.Reclaimed) (hs : s.Sound)
    (hstep : s.step a = some s') : s'.Found ↔ s.Unfollowed a := by
  cases steps_of_step hstep with
  | enq => exact iff_of_true (h.goto rfl (undeleted_alloc s _) nofun) trivial
  | deq => exact iff_of_true (h.goto rfl (.of_heap rfl) nofun) trivial
  | go hgo => exact found_go h hr hs hgo

end Queue

/-- For any number of threads and any interleaving: in all states of the run every node that a
thread is about to look at is there, if and only if no step of the run deletes a node that a thread
is about to look at. -/
theorem found_iff_unfollowed (T : Type) [DecidableEq T] {V : Type} (junk : V)
    (acts : List (QueueAct T V)) :
    (lockFreeQueue T junk).AllStates Queue.Found (lockFreeQueue T junk).init acts ↔
      (lockFreeQueue T junk).AllSteps Queue.Unfollowed (lockFreeQueue T junk).init acts := by
  apply Machine.allStates_iff_allSteps (J := fun s ↦ s.Reclaimed ∧ s.Sound)
  · rintro s a s' hfound ⟨hr, hs⟩ hstep
    exact Queue.found_step hfound hr hs hstep
  · rintro s a s' - ⟨hr, hs⟩ - hstep
    exact ⟨hr.step hs hstep, hs.step hstep⟩
  · nofun
  · exact ⟨Queue.reclaimed_new junk, Queue.sound_new junk⟩

/-- Thread 0 has read `tail` in `enq`. Before it reads `last->next`, thread 1 enqueues a value and
dequeues it, and deletes the node. -/
theorem not_found_last : ¬ ∀ (acts : List (QueueAct (Fin 2) Nat)),
    (lockFreeQueue (Fin 2) 0).AllStates Queue.Found (lockFreeQueue (Fin 2) 0).init acts := by
  intro h
  let acts : List (QueueAct (Fin 2) Nat) :=
    [.enq 0 5, .go 0, .enq 1 6, .go 1, .go 1, .go 1, .go 1, .go 1, .go 1, .deq 1 false, .go 1,
      .go 1, .go 1, .go 1, .go 1, .go 1, .go 1, .go 1, .go 1]
  obtain ⟨s, hrun, hpc, hgone⟩ : ∃ s, (lockFreeQueue (Fin 2) 0).run (lockFreeQueue (Fin 2) 0).init
      acts = some s ∧ s.pc 0 = .enqNext 5 1 0 ∧ s.node? 0 = none := ⟨_, rfl, rfl, rfl⟩
  obtain ⟨x, d, hx, hd⟩ := Machine.AllStates.last _ (h acts) hrun 0 (some 0) (by rw [hpc]; rfl)
  cases hx
  cases hgone.symm.trans hd

end Filth.LockFree
