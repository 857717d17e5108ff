import Filth.Base.Census
import Filth.Queue.Fifo

/-!
# The semaphore of the lock-free queue

`src/LockFreeQueue.hpp:9–24` says that the value of the semaphore is the size of the queue. It is
not while calls are under way: `enq` links a node before it calls `up`, a dequeueing call swings
`head` before it calls `down`, and a waiter that finds nothing takes a unit and gives it back.
-/

namespace Filth.LockFree

open Base

variable {T V : Type}

namespace Pc

/-- In `enq`, between the swap that links the node and `up`. -/
def unposted : Pc V → Bool
  | enqSwing .. | enqUp => true
  | _ => false

/-- In a dequeueing call, between the swap of `head` and `down`. -/
def undrawn : Pc V → Bool
  | deqDown .. => true
  | _ => false

/-- In `wait_deq` with nothing to dequeue, between `down` and `up`. -/
def borrowing : Pc V → Bool
  | waitUp => true
  | _ => false

/-- The next step is `down`. -/
def drawing : Pc V → Bool
  | deqDown .. | waitDown => true
  | _ => false

/-- The next step is `up`, or there is only the swap of `tail` before it. -/
def posting (pc : Pc V) : Bool := pc.unposted || pc.borrowing

/-- The thread has no call. -/
def isIdle : Pc V → Bool
  | idle _ => true
  | _ => false

end Pc

namespace Queue

variable {s s₁ s' : Queue T V} {t u : T} {pc : Pc V}

section Fields

private theorem sz_casTail (s : Queue T V) (x y : Addr) : (s.casTail x y).sz = s.sz := by
  unfold casTail
  split <;> rfl

private theorem linked_casTail (s : Queue T V) (x y : Addr) :
    (s.casTail x y).linked = s.linked := by
  unfold casTail
  split <;> rfl

private theorem taken_casTail (s : Queue T V) (x y : Addr) : (s.casTail x y).taken = s.taken := by
  unfold casTail
  split <;> rfl

theorem length_linked_link (s : Queue T V) (last n : Addr) (v : V) :
    (s.link last n v).linked.length = s.linked.length + 1 := List.length_append

private theorem length_taken_swing (s : Queue T V) (next : Addr) (v : V) :
    (s.swing next v).taken.length = s.taken.length + 1 := List.length_append

end Fields

/-- What is in the queue is what has been linked and not been taken. -/
theorem Sound.length_contents (h : s.Sound) :
    s.contents.length + s.taken.length = s.linked.length := by
  have hle := h.shape.taken.length_le
  simp only [contents, List.length_map, List.length_drop]
  omega

/-! ### Accounts -/

section Accounts

variable [Fintype T]

/-- Enqueueing calls that have linked their node and not called `up`. -/
def unposted (s : Queue T V) : Nat := census Pc.unposted s.pc

/-- Dequeueing calls that have swung `head` and not called `down`. -/
def undrawn (s : Queue T V) : Nat := census Pc.undrawn s.pc

/-- Waiting calls that have called `down` and not called `up`. -/
def borrowing (s : Queue T V) : Nat := census Pc.borrowing s.pc

/-- Every unit of the semaphore, there or under way, is for a node, there or under way. -/
def Balanced (s : Queue T V) : Prop :=
  s.sz + s.unposted + s.borrowing + s.taken.length = s.linked.length + s.undrawn

/-- With no call under way all accounts are empty. -/
theorem balanced_new (junk : V) : (new junk : Queue T V).Balanced := by
  have hu : census Pc.unposted (new junk : Queue T V).pc = 0 := census_eq_zero fun _ ↦ rfl
  have hd : census Pc.undrawn (new junk : Queue T V).pc = 0 := census_eq_zero fun _ ↦ rfl
  have hb : census Pc.borrowing (new junk : Queue T V).pc = 0 := census_eq_zero fun _ ↦ rfl
  rw [Balanced, unposted, undrawn, borrowing, hu, hd, hb]
  rfl

variable [DecidableEq T]

/-- A thread goes on after a change of the queue that makes up for its change of place. -/
theorem Balanced.goto (h : s.Balanced) (hpc : s₁.pc = s.pc)
    (heq : s₁.sz + pc.unposted.toNat + pc.borrowing.toNat + s₁.taken.length + s.linked.length +
        (s.pc t).undrawn.toNat =
      s.sz + (s.pc t).unposted.toNat + (s.pc t).borrowing.toNat + s.taken.length +
        s₁.linked.length + pc.undrawn.toNat) : (s₁.goto t pc).Balanced := by
  have hu := census_update Pc.unposted s.pc t pc
  have hd := census_update Pc.undrawn s.pc t pc
  have hb := census_update Pc.borrowing s.pc t pc
  simp only [Balanced, unposted, undrawn, borrowing, Queue.goto, hpc] at h ⊢
  omega

/-- A thread goes on, with nothing that counts. -/
theorem Balanced.still (h : s.Balanced) (hpc : s₁.pc = s.pc) (hsz : s₁.sz = s.sz)
    (hlinked : s₁.linked = s.linked) (htaken : s₁.taken = s.taken)
    (hu : pc.unposted = (s.pc t).unposted) (hd : pc.undrawn = (s.pc t).undrawn)
    (hb : pc.borrowing = (s.pc t).borrowing) : (s₁.goto t pc).Balanced := by
  apply h.goto hpc
  rw [hsz, hlinked, htaken, hu, hd, hb]

/-- A step of a thread in a call. -/
theorem Balanced.go (h : s.Balanced) (hgo : s.go t = some s') : s'.Balanced := by
  cases go_moves hgo with
  | enqTail hp | enqNext hp | enqLast hp | enqLags hp | enqMoved hp | linkLost hp | deqHead hp
  | deqTail hp | deqAgain hp | deqNext hp | nothing hp | sleep hp | deqLags hp | deqFound hp
  | deqMoved hp | deqRead hp | swingLost hp | deqFree hp =>
    exact h.still rfl rfl rfl rfl (by rw [hp]; rfl) (by rw [hp]; rfl) (by rw [hp]; rfl)
  | enqSwing hp | enqHelp hp | deqHelp hp =>
    exact h.still (pc_casTail _ _ _) (sz_casTail _ _ _) (linked_casTail _ _ _)
      (taken_casTail _ _ _) (by rw [hp]; rfl) (by rw [hp]; rfl) (by rw [hp]; rfl)
  | @link v n last d hp =>
    apply h.goto
    · rfl
    · rw [hp, length_linked_link]
      simp only [Pc.unposted, Pc.undrawn, Pc.borrowing, Bool.toNat_true, Bool.toNat_false,
        Queue.link]
      omega
  | @swing wait first next v hp =>
    apply h.goto
    · rfl
    · rw [hp, length_taken_swing]
      simp only [Pc.unposted, Pc.undrawn, Pc.borrowing, Bool.toNat_true, Bool.toNat_false,
        Queue.swing]
      omega
  | enqUp hp | waitUp hp =>
    apply h.goto
    · rfl
    · rw [hp]
      simp only [Pc.unposted, Pc.undrawn, Pc.borrowing, Bool.toNat_true, Bool.toNat_false,
        Queue.setSz]
  | deqDown hp hpos | waitDown hp hpos =>
    apply h.goto
    · rfl
    · rw [hp]
      simp only [Pc.unposted, Pc.undrawn, Pc.borrowing, Bool.toNat_true, Bool.toNat_false,
        Queue.setSz]
      omega

/-- The accounts are kept by every step. -/
theorem Balanced.step {a : QueueAct T V} (h : s.Balanced) (hstep : s.step a = some s') :
    s'.Balanced := by
  cases steps_of_step hstep with
  | enq hp => exact h.still rfl rfl rfl rfl (by rw [hp]; rfl) (by rw [hp]; rfl) (by rw [hp]; rfl)
  | deq hp => exact h.still rfl rfl rfl rfl (by rw [hp]; rfl) (by rw [hp]; rfl) (by rw [hp]; rfl)
  | go hgo => exact h.go hgo

end Accounts

/-! ### Sleeping and waking up -/

section Sleeping

variable [DecidableEq T]

/-- A thread in a call can go on, unless it waits for the semaphore: what it follows is a node. -/
theorem Sound.stuck (h : s.Sound) (hstuck : s.go t = none) :
    (s.pc t).isIdle = true ∨ (s.pc t).drawing = true ∧ s.sz = 0 := by
  have hknows := h.knows t
  have hfound {k : Nat} {x : Addr} (hk : s.At k x) : s.heap[x]? ≠ none := by
    obtain ⟨d, hd, -⟩ := h.shape.next k x hk
    rw [hd]
    exact Option.some_ne_none d
  unfold Queue.go at hstuck
  split at hstuck
  all_goals grind [Knows, Pc.isIdle, Pc.drawing]

/-- A thread that is about to call `up` can go on, and either has called it then or calls it
next. -/
theorem go_of_posting (h : (s.pc t).posting = true) :
    ∃ s', s.go t = some s' ∧ (s'.sz = s.sz + 1 ∨ s'.sz = s.sz ∧ s'.pc t = .enqUp) := by
  cases hp : s.pc t with
  | enqSwing n last =>
    refine ⟨(s.casTail last n).goto t .enqUp, by simp only [go, hp], .inr ⟨?_, ?_⟩⟩
    · exact sz_casTail s last n
    · exact pc_goto_self _ t _
  | enqUp =>
    exact ⟨(s.setSz (s.sz + 1)).goto t (.idle (some .enqueued)), by simp only [go, hp], .inl rfl⟩
  | waitUp => exact ⟨(s.setSz (s.sz + 1)).goto t (.deqHead true), by simp only [go, hp], .inl rfl⟩
  | _ =>
    rw [hp] at h
    cases h

end Sleeping

section Reachable

variable [Fintype T]

/-- If there is a node for somebody, there is a unit, or one under way. -/
theorem Balanced.exists_unit (h : s.Balanced) (hs : s.Sound)
    (hnode : s.contents ≠ [] ∨ ∃ u, (s.pc u).undrawn = true) :
    0 < s.sz ∨ ∃ u, (s.pc u).posting = true := by
  have hlen := hs.length_contents
  have hpos : 0 < s.contents.length + s.undrawn := by
    rcases hnode with hne | hu
    · have := List.length_pos_iff.mpr hne
      omega
    · have : 0 < s.undrawn := census_pos_iff.mpr hu
      omega
  have hcases : 0 < s.sz ∨ 0 < s.unposted ∨ 0 < s.borrowing := by
    rw [Balanced] at h
    omega
  rcases hcases with hsz | hu | hb
  · exact .inl hsz
  · obtain ⟨u, hu⟩ := census_pos_iff.mp hu
    exact .inr ⟨u, by rw [Pc.posting, hu, Bool.true_or]⟩
  · obtain ⟨u, hb⟩ := census_pos_iff.mp hb
    exact .inr ⟨u, by rw [Pc.posting, hb, Bool.or_true]⟩

variable [DecidableEq T]

/-- The value of the semaphore, with the calls that are between a change of the list and the
operation on the semaphore that belongs to it, makes up the size of the queue. So nobody sleeps
while there is a node to be had, or has been taken, unless somebody else is about to call `up`; and
if nobody can go on, whoever is in a call waits at an empty queue. -/
structure Accounted (s : Queue T V) : Prop where
  size : (s.sz : Int) + s.unposted - s.undrawn + s.borrowing = s.contents.length
  woken : ∀ t, (s.pc t).drawing = true → s.contents ≠ [] ∨ (∃ u, (s.pc u).undrawn = true) →
    0 < s.sz ∨ ∃ u, u ≠ t ∧ (s.pc u).posting = true
  posts : ∀ t, (s.pc t).posting = true →
    ∃ s', s.go t = some s' ∧ (s'.sz = s.sz + 1 ∨ s'.sz = s.sz ∧ s'.pc t = .enqUp)
  stuck : (∀ t, s.go t = none) →
    ∀ t, (s.pc t).isIdle = true ∨ s.pc t = .waitDown ∧ s.contents = []

theorem Balanced.accounted (h : s.Balanced) (hs : s.Sound) : s.Accounted := by
  have hlen := hs.length_contents
  constructor
  case size =>
    rw [Balanced] at h
    omega
  case woken =>
    intro t ht hnode
    rcases h.exists_unit hs hnode with hsz | ⟨u, hu⟩
    · exact .inl hsz
    · refine .inr ⟨u, ?_, hu⟩
      rintro rfl
      cases hp : s.pc u <;> rw [hp] at ht hu <;> simp [Pc.drawing, Pc.posting, Pc.unposted,
        Pc.borrowing] at ht hu
  case posts => exact fun t ht ↦ go_of_posting ht
  case stuck =>
    intro hstuck t
    rcases hs.stuck (hstuck t) with hidle | ⟨hdraw, hzero⟩
    · exact .inl hidle
    · have hnone : ¬ (s.contents ≠ [] ∨ ∃ u, (s.pc u).undrawn = true) := by
        intro hnode
        rcases h.exists_unit hs hnode with hsz | ⟨u, hu⟩
        · omega
        · obtain ⟨s', hgo, -⟩ := go_of_posting hu
          cases (hstuck u).symm.trans hgo
      obtain ⟨hempty, hdrawn⟩ := not_or.mp hnone
      refine .inr ⟨?_, not_not.mp hempty⟩
      cases hp : s.pc t with
      | waitDown => rfl
      | deqDown wait first v => exact absurd ⟨t, by rw [hp]; rfl⟩ hdrawn
      | _ =>
        rw [hp] at hdraw
        cases hdraw

/-! ### Dequeueing without sleeping -/

/-- Who has swung `head` in `nowait_deq` does not have to sleep now. -/
def NeverSleeps (s : Queue T V) : Prop :=
  ∀ t first v, s.pc t = .deqDown false first v → 0 < s.sz

/-- So many units are there: the nodes that are there, or have been taken without a unit, are by
that many more than the units that are still to be posted or have been borrowed. -/
def Units (s : Queue T V) (n : Nat) : Prop :=
  s.unposted + s.borrowing + n ≤ s.contents.length + s.undrawn

/-- `nowait_deq` swings `head` only while there is a unit, and nobody takes the last one while a
call of `nowait_deq` is between the swap and `down`. -/
def Covered (s : Queue T V) : QueueAct T V → Prop
  | .go t =>
    match s.pc t with
    | .deqSwing false first _ _ => s.head = first → s.Units 1
    | .deqDown .. | .waitDown =>
      ∀ u first v, u ≠ t → s.pc u = .deqDown false first v → s.Units 2
    | _ => True
  | _ => True

omit [DecidableEq T] in
private theorem Balanced.units_iff (h : s.Balanced) (hs : s.Sound) (n : Nat) :
    s.Units n ↔ n ≤ s.sz := by
  have hlen := hs.length_contents
  rw [Balanced] at h
  unfold Units
  omega

omit [Fintype T] in
/-- A thread goes on, not to a place where it must not sleep, and takes no unit. -/
theorem NeverSleeps.goto (h : s.NeverSleeps) (hpc : s₁.pc = s.pc) (hsz : s.sz ≤ s₁.sz)
    (hp : ∀ first v, pc ≠ .deqDown false first v) : (s₁.goto t pc).NeverSleeps := by
  intro u first v hu
  by_cases hut : u = t
  · subst hut
    rw [pc_goto_self] at hu
    exact absurd hu (hp first v)
  · rw [pc_goto_of_ne s₁ hut, hpc] at hu
    exact Nat.lt_of_lt_of_le (h u first v hu) hsz

omit [Fintype T] in
/-- A thread takes a unit. -/
private theorem neverSleeps_draw_iff (hp : ∀ first v, pc ≠ .deqDown false first v) :
    ((s.setSz (s.sz - 1)).goto t pc).NeverSleeps ↔
      ∀ u first v, u ≠ t → s.pc u = .deqDown false first v → 2 ≤ s.sz := by
  constructor
  · intro h u first v hut hu
    have hpos : 0 < s.sz - 1 := h u first v ((pc_goto_of_ne _ hut _).trans hu)
    omega
  · intro h u first v hu
    by_cases hut : u = t
    · subst hut
      rw [pc_goto_self] at hu
      exact absurd hu (hp first v)
    · rw [pc_goto_of_ne _ hut] at hu
      have htwo := h u first v hut hu
      show 0 < s.sz - 1
      omega

/-- A step of a thread in a call. -/
private theorem neverSleeps_go (h : s.NeverSleeps) (hb : s.Balanced) (hs : s.Sound)
    (hgo : s.go t = some s') : s'.NeverSleeps ↔ s.Covered (.go t) := by
  cases go_moves hgo with
  | enqTail hp | enqNext hp | enqLast hp | enqLags hp | enqMoved hp | link hp | linkLost hp
  | enqUp hp | deqHead hp | deqTail hp | deqAgain hp | deqNext hp | nothing hp | sleep hp
  | deqLags hp | deqFound hp | deqMoved hp | deqRead hp | deqFree hp | waitUp hp =>
    refine iff_of_true (h.goto rfl ?_ nofun) ?_
    · first
      | exact Nat.le_refl _
      | exact Nat.le_succ _
    · simp only [Covered, hp]
  | enqSwing hp | enqHelp hp | deqHelp hp =>
    refine iff_of_true (h.goto (pc_casTail _ _ _) (sz_casTail _ _ _).ge nofun) ?_
    simp only [Covered, hp]
  | @swingLost wait first next v hp hhead =>
    refine iff_of_true (h.goto rfl (Nat.le_refl _) nofun) ?_
    cases wait
    · simp only [Covered, hp]
      exact fun heq ↦ absurd heq hhead
    · simp only [Covered, hp]
  | @swing wait first next v hp hhead =>
    cases wait
    · simp only [Covered, hp, hb.units_iff hs]
      constructor
      · intro hn _
        exact hn t first v (pc_goto_self _ t _)
      · intro hpos u first' v' hu
        exact hpos hhead
    · refine iff_of_true (h.goto rfl (Nat.le_refl _) nofun) ?_
      simp only [Covered, hp]
  | deqDown hp hpos | waitDown hp hpos =>
    simp only [Covered, hp, hb.units_iff hs]
    exact neverSleeps_draw_iff nofun

/-- Any step. -/
private theorem neverSleeps_step {a : QueueAct T V} (h : s.NeverSleeps) (hb : s.Balanced)
    (hs : s.Sound) (hstep : s.step a = some s') : s'.NeverSleeps ↔ s.Covered a := by
  cases steps_of_step hstep with
  | enq => exact iff_of_true (h.goto rfl (Nat.le_refl _) nofun) trivial
  | deq => exact iff_of_true (h.goto rfl (Nat.le_refl _) nofun) trivial
  | go hgo => exact neverSleeps_go h hb hs hgo

end Reachable

end Queue

/-- In every state that any number of threads can bring about. -/
theorem accounted_of_reachable (T : Type) [DecidableEq T] [Fintype T] {V : Type} (junk : V)
    (s : Queue T V) (h : (lockFreeQueue T junk).Reachable s) : s.Accounted := by
  have hbalanced : s.Balanced :=
    Machine.invariant _ (Queue.balanced_new junk) (fun _ _ _ hs hstep ↦ hs.step hstep) h
  exact hbalanced.accounted (sound_of_reachable h)

/-- Thread `w` sleeps in `wait_deq`; then `t` puts 5 in. Thread `u` has swung `head` behind it and
not called `down`, and `t` has linked 6, without the call of `up`. -/
def crossing (t u w : T) : List (QueueAct T Nat) :=
  .deq w true :: List.replicate 5 (.go w) ++ .enq t 5 :: List.replicate 6 (.go t) ++
    .deq u false :: List.replicate 7 (.go u) ++ .enq t 6 :: List.replicate 4 (.go t)

theorem accounted_of_reachable_crossing : ∃ s : Queue (Fin 3) Nat,
    (lockFreeQueue (Fin 3) 0).run (.new 0) (crossing 0 1 2) = some s ∧
    (s.pc 0, s.pc 1, s.pc 2, s.sz, s.contents) =
      (.enqSwing 2 1, .deqDown false 0 5, .waitDown, 1, [6]) ∧ s.Accounted := by
  obtain ⟨s, hrun, hs⟩ : ∃ s : Queue (Fin 3) Nat,
      (lockFreeQueue (Fin 3) 0).run (.new 0) (crossing 0 1 2) = some s ∧
      (s.pc 0, s.pc 1, s.pc 2, s.sz, s.contents) =
        (.enqSwing 2 1, .deqDown false 0 5, .waitDown, 1, [6]) :=
    Option.map_eq_some_iff.mp (by decide +kernel)
  exact ⟨s, hrun, hs, accounted_of_reachable (Fin 3) 0 s ⟨crossing 0 1 2, hrun⟩⟩

/-- For any number of threads and any interleaving: in all states of the run a thread that has swung
`head` in `nowait_deq` finds a unit, if and only if every step of the run leaves it one. -/
theorem neverSleeps_iff_covered (T : Type) [DecidableEq T] [Fintype T] {V : Type} (junk : V)
    (acts : List (QueueAct T V)) :
    (lockFreeQueue T junk).AllStates Queue.NeverSleeps (lockFreeQueue T junk).init acts ↔
      (lockFreeQueue T junk).AllSteps Queue.Covered (lockFreeQueue T junk).init acts := by
  apply Machine.allStates_iff_allSteps (J := fun s ↦ s.Balanced ∧ s.Sound)
  · rintro s a s' hn ⟨hb, hs⟩ hstep
    exact Queue.neverSleeps_step hn hb hs hstep
  · rintro s a s' - ⟨hb, hs⟩ - hstep
    exact ⟨hb.step hstep, hs.step hstep⟩
  · nofun
  · exact ⟨Queue.balanced_new junk, Queue.sound_new junk⟩

/-- Thread 0 has linked a node and not called `up`. Thread 1 finds the node, swings `head` and has
to wait for thread 0. -/
theorem not_neverSleeps_unposted : ¬ ∀ (acts : List (QueueAct (Fin 2) Nat)),
    (lockFreeQueue (Fin 2) 0).AllStates Queue.NeverSleeps (lockFreeQueue (Fin 2) 0).init acts := by
  intro h
  let acts : List (QueueAct (Fin 2) Nat) :=
    [.enq 0 5, .go 0, .go 0, .go 0, .go 0, .go 0, .deq 1 false, .go 1, .go 1, .go 1, .go 1, .go 1,
      .go 1, .go 1]
  obtain ⟨s, hrun, hpc, hsz⟩ : ∃ s, (lockFreeQueue (Fin 2) 0).run (lockFreeQueue (Fin 2) 0).init
      acts = some s ∧ s.pc 1 = .deqDown false 0 5 ∧ s.sz = 0 := ⟨_, rfl, rfl, rfl⟩
  have hpos := Machine.AllStates.last _ (h acts) hrun 1 0 5 hpc
  omega

end Filth.LockFree
