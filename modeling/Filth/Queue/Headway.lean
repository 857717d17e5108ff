import Filth.Base.Progress
import Filth.Queue.Semaphore

/-!
# The lock-free queue gets on

A thread that goes through its loop once more does so because a swap of somebody's has succeeded
since it began the last time. So without calls of `wait_deq` there are only so many steps for so many
calls, whatever the schedule. A call of `wait_deq` may go round for ever.
-/

namespace Filth.LockFree

open Base

variable {T V : Type}

/-- The call is one of `wait_deq`. -/
def Pc.waits : Pc V → Bool
  | deqHead wait | deqTail wait _ | deqAgain wait _ _ | deqNext wait _ _ _ | deqTest wait _ _ _
  | deqHelp wait _ _ | deqRead wait _ _ | deqSwing wait _ _ _ | deqDown wait _ _
  | deqFree wait _ _ => wait
  | waitDown | waitUp => true
  | _ => false

/-- Steps to the end of the loop or, past the swap that the loop is for, of the call. -/
def Pc.left : Pc V → Nat
  | enqTail .. | deqHead _ => 8
  | enqNext .. | deqTail .. => 7
  | enqTest .. | deqAgain .. => 6
  | enqLink .. | enqHelp .. | deqNext .. => 5
  | deqTest .. => 4
  | deqHelp .. | deqRead .. => 3
  | enqSwing .. | deqSwing .. | deqDown .. => 2
  | enqUp | deqFree .. => 1
  | idle _ | waitDown | waitUp => 0

/-- Swaps that the call has yet to bring about: of a `next` and of `tail`, or of `head`. -/
def Pc.swaps : Pc V → Nat
  | enqTail .. | enqNext .. | enqTest .. | enqLink .. | enqHelp .. => 2
  | deqHead _ | deqTail .. | deqAgain .. | deqNext .. | deqTest .. | deqHelp .. | deqRead ..
  | deqSwing .. => 1
  | _ => 0

/-- A call of `wait_deq` begins. -/
def QueueAct.waits : QueueAct T V → Bool
  | deq _ wait => wait
  | _ => false

/-- A call begins. -/
def QueueAct.isCall : QueueAct T V → Bool
  | enq .. | deq .. => true
  | go _ => false

namespace Queue

variable {s s₁ s' : Queue T V} {t : T} {pc : Pc V} {x : Addr}

/-- The node has a next one. -/
def followed (s : Queue T V) (x : Addr) : Bool := (s.heap[x]?.bind Node.next).isSome

/-- What the thread has read is no longer so, and it will have to begin again. -/
def outdated (s : Queue T V) : Pc V → Bool
  | .enqNext _ _ last | .enqHelp _ _ last _ | .deqHelp _ last _ => decide (s.tail ≠ last)
  | .enqTest _ _ last next => decide (s.tail ≠ last) || next.isNone && s.followed last
  | .enqLink _ _ last => s.followed last
  | .deqTail _ first | .deqRead _ first _ | .deqSwing _ first _ _ => decide (s.head ≠ first)
  | .deqAgain _ first last | .deqNext _ first last _ | .deqTest _ first last _ =>
    decide (s.head ≠ first) || decide (first = last) && decide (s.tail ≠ last)
  | _ => false

/-- Steps that a thread takes if no more swaps succeed. -/
def debt (s : Queue T V) (pc : Pc V) : Nat := pc.left + 8 * (s.outdated pc).toNat

private theorem debt_le (s : Queue T V) (pc : Pc V) : s.debt pc ≤ pc.left + 8 := by
  rw [debt]
  cases s.outdated pc <;> simp

private theorem left_le_debt (s : Queue T V) (pc : Pc V) :
    pc.left ≤ s.debt pc := Nat.le_add_right _ _

private theorem debt_congr (htail : s₁.tail = s.tail) (hhead : s₁.head = s.head)
    (hnext : ∀ x, s₁.followed x = s.followed x) : s₁.debt = s.debt := by
  funext pc
  have hsame : s₁.outdated pc = s.outdated pc := by
    cases pc <;> simp only [outdated, htail, hhead, hnext]
  rw [debt, debt, hsame]

section Followed

private theorem followed_eq {d : Node V} (hd : s.heap[x]? = some d) :
    s.followed x = d.next.isSome := by
  rw [followed, hd]
  rfl

private theorem followed_alloc (s : Queue T V) (v : V) (x : Addr) :
    (s.alloc v).followed x = s.followed x := by
  rw [followed, followed, alloc, List.getElem?_append]
  split
  · rfl
  · next hge =>
    rw [List.getElem?_eq_none (Nat.le_of_not_lt hge), List.getElem?_singleton]
    split <;> rfl

private theorem followed_free (s : Queue T V) (x y : Addr) :
    (s.free y).followed x = s.followed x := by
  rw [followed, followed, free, List.getElem?_modify]
  cases s.heap[x]? with
  | none => rfl
  | some d =>
    change (Option.bind (some (if y = x then { d with freed := true } else d)) _).isSome = _
    split <;> rfl

end Followed

/-- `tail` is not swung past the last node. -/
theorem Sound.swung_le (h : s.Sound) : s.swung ≤ s.linked.length := by
  obtain ⟨hlt, -⟩ := List.getElem?_eq_some_iff.mp h.shape.tail
  rw [chain, List.length_cons, List.length_map] at hlt
  exact Nat.le_of_lt_succ hlt

section Potential

variable [Fintype T]

/-- Swaps that are still to come: those of the calls, and those of `tail` that are overdue. -/
def swaps (s : Queue T V) : Nat := ∑ t, (s.pc t).swaps + (s.linked.length - s.swung)

/-- Each swap may send every thread back to the beginning of its loop. -/
def potential (s : Queue T V) : Nat :=
  ∑ t, s.debt (s.pc t) + (8 * Fintype.card T + 6) * s.swaps

private theorem potential_new (junk : V) : (new junk : Queue T V).potential = 0 := by
  have hdebt : ∑ t : T, (new junk : Queue T V).debt ((new junk : Queue T V).pc t) = 0 :=
    Finset.sum_eq_zero fun _ _ ↦ rfl
  have hswaps : ∑ t : T, ((new junk : Queue T V).pc t).swaps = 0 :=
    Finset.sum_eq_zero fun _ _ ↦ rfl
  rw [potential, swaps, hdebt, hswaps]
  rfl

variable [DecidableEq T]

private theorem sum_swaps_goto (t : T) (pc : Pc V) (hpc : s₁.pc = s.pc) :
    ∑ u, ((s₁.goto t pc).pc u).swaps + (s.pc t).swaps = ∑ u, (s.pc u).swaps + pc.swaps := by
  rw [← hpc]
  exact sum_update Pc.swaps s₁.pc t pc

/-- Nothing is swung, and the thread pays for its step. -/
theorem potential_still (hpc : s₁.pc = s.pc) (hdebt : s₁.debt = s.debt)
    (hlag : s₁.linked.length - s₁.swung = s.linked.length - s.swung)
    (hown : s.debt pc < s.debt (s.pc t)) (hswaps : pc.swaps ≤ (s.pc t).swaps) :
    (s₁.goto t pc).potential < s.potential := by
  have hsum := sum_update s.debt s.pc t pc
  have hless := sum_swaps_goto t pc hpc
  have hmono : (8 * Fintype.card T + 6) * (s₁.goto t pc).swaps ≤
      (8 * Fintype.card T + 6) * s.swaps := by
    apply Nat.mul_le_mul_left
    simp only [swaps, goto] at hless ⊢
    omega
  have hsame : ∑ u, (s₁.goto t pc).debt ((s₁.goto t pc).pc u) =
      ∑ u, s.debt (Function.update s.pc t pc u) := by
    rw [← hdebt, ← hpc]
    rfl
  rw [potential, potential, hsame]
  omega

/-- A swap pays for all that it undoes. -/
theorem potential_swap (hpc : s₁.pc = s.pc)
    (hlag : s₁.linked.length - s₁.swung + pc.swaps + 1 ≤
      s.linked.length - s.swung + (s.pc t).swaps)
    (hleft : pc.left ≤ (s.pc t).left + 5) : (s₁.goto t pc).potential < s.potential := by
  have hsum := sum_update Pc.left s.pc t pc
  have hless := sum_swaps_goto t pc hpc
  have hmono : (8 * Fintype.card T + 6) * (s₁.goto t pc).swaps + (8 * Fintype.card T + 6) ≤
      (8 * Fintype.card T + 6) * s.swaps := by
    rw [← Nat.mul_succ]
    apply Nat.mul_le_mul_left
    simp only [swaps, goto] at hless ⊢
    omega
  have hafter : ∑ u, (s₁.goto t pc).debt ((s₁.goto t pc).pc u) ≤
      ∑ u, (Function.update s.pc t pc u).left + 8 * Fintype.card T := by
    have height : 8 * Fintype.card T = ∑ _u : T, 8 := by simp [Nat.mul_comm]
    rw [height, ← Finset.sum_add_distrib, ← hpc]
    exact Finset.sum_le_sum fun u _ ↦ debt_le _ _
  have hbefore : ∑ u, (s.pc u).left ≤ ∑ u, s.debt (s.pc u) :=
    Finset.sum_le_sum fun u _ ↦ left_le_debt s _
  rw [potential, potential]
  omega

/-- A call brings what it will need. -/
theorem potential_call (hpc : s₁.pc = s.pc) (hdebt : s₁.debt = s.debt)
    (hlag : s₁.linked.length - s₁.swung = s.linked.length - s.swung) (hown : s.debt pc ≤ 8)
    (hswaps : pc.swaps ≤ 2) :
    (s₁.goto t pc).potential ≤ s.potential + (16 * Fintype.card T + 20) := by
  have hsum := sum_update s.debt s.pc t pc
  have hless := sum_swaps_goto t pc hpc
  have hmono : (8 * Fintype.card T + 6) * (s₁.goto t pc).swaps ≤
      (8 * Fintype.card T + 6) * s.swaps + (8 * Fintype.card T + 6) * 2 := by
    rw [← Nat.mul_add]
    apply Nat.mul_le_mul_left
    simp only [swaps, goto] at hless ⊢
    omega
  have hsame : ∑ u, (s₁.goto t pc).debt ((s₁.goto t pc).pc u) =
      ∑ u, s.debt (Function.update s.pc t pc u) := by
    rw [← hdebt, ← hpc]
    rfl
  rw [potential, potential, hsame]
  omega

/-! ### Steps -/

/-- A swap of `tail` that may have come too late: then the thread is outdated. -/
private theorem potential_casTail (h : (s.casTail x y).swung ≤ (s.casTail x y).linked.length)
    (hout : s.tail ≠ x → s.debt pc < s.debt (s.pc t)) (hswaps : pc.swaps ≤ (s.pc t).swaps)
    (hleft : pc.left ≤ (s.pc t).left + 5) : ((s.casTail x y).goto t pc).potential < s.potential := by
  by_cases htail : s.tail = x
  · rw [casTail, if_pos htail] at h ⊢
    refine potential_swap rfl ?_ hleft
    dsimp only at h ⊢
    omega
  · rw [casTail, if_neg htail]
    exact potential_still rfl rfl rfl (hout htail) hswaps

/-- Every step of a thread that is not in `wait_deq` is paid for. -/
private theorem potential_go (h : s.Sound) (hwait : (s.pc t).waits = false)
    (hgo : s.go t = some s') :
    s'.potential < s.potential := by
  have h' := (h.go hgo).swung_le
  have hknows := h.knows t
  cases go_moves hgo with
  -- on to the next statement, with what was read still to be had
  | enqTail hp | deqHead hp | deqTail hp | deqAgain hp | deqNext hp | deqRead hp =>
    refine potential_still rfl rfl rfl ?_ (by rw [hp]; simp [Pc.swaps])
    rw [hp]
    simp [debt, Pc.left, outdated]
  | @enqNext v n last d hp hd =>
    refine potential_still rfl rfl rfl ?_ (by rw [hp]; simp [Pc.swaps])
    rw [hp]
    cases hnext : d.next <;> simp [debt, Pc.left, outdated, followed_eq hd, hnext]
  | enqLast hp heq | enqLags hp heq | nothing hp heq | deqLags hp heq =>
    refine potential_still rfl rfl rfl ?_ (by rw [hp]; simp [Pc.swaps])
    rw [hp]
    simp [debt, Pc.left, outdated, heq]
  | deqFound hp heq hne =>
    refine potential_still rfl rfl rfl ?_ (by rw [hp]; simp [Pc.swaps])
    rw [hp]
    simp [debt, Pc.left, outdated, heq, hne]
  -- back to the beginning, which has been paid for
  | enqMoved hp hne | deqMoved hp hne | swingLost hp hne =>
    refine potential_still rfl rfl rfl ?_ (by rw [hp]; simp [Pc.swaps])
    rw [hp]
    simp [debt, Pc.left, outdated, hne]
  | @linkLost v n last d hp hd hlast =>
    refine potential_still rfl rfl rfl ?_ (by rw [hp]; simp [Pc.swaps])
    rw [hp]
    simp [debt, Pc.left, outdated, followed_eq hd, Option.isSome_iff_ne_none.mpr hlast]
  -- a swap that may or may not succeed
  | enqSwing hp | enqHelp hp | deqHelp hp =>
    refine potential_casTail h' (fun hne ↦ ?_) (by rw [hp]; simp [Pc.swaps])
      (by rw [hp]; simp [Pc.left])
    rw [hp]
    simp [debt, Pc.left, outdated, hne]
  -- one that does
  | link hp hd hlast =>
    refine potential_swap rfl ?_ (by rw [hp]; simp [Pc.left])
    rw [hp, length_linked_link]
    have hle := h.swung_le
    simp only [Queue.link, Pc.swaps]
    omega
  | swing hp hhead =>
    refine potential_swap rfl ?_ (by rw [hp]; simp [Pc.left])
    rw [hp]
    simp [Queue.swing, Pc.swaps]
  -- after that
  | enqUp hp | deqDown hp hpos =>
    refine potential_still rfl rfl rfl ?_ (by rw [hp]; simp [Pc.swaps])
    rw [hp]
    simp [debt, Pc.left, outdated]
  | @deqFree wait first v hp =>
    refine potential_still rfl (debt_congr rfl rfl fun x ↦ followed_free s x first) rfl ?_
      (by rw [hp]; simp [Pc.swaps])
    rw [hp]
    simp [debt, Pc.left, outdated]
  | sleep hp | waitDown hp | waitUp hp =>
    rw [hp] at hwait
    cases hwait

/-- And it brings what it needs if it is the first. -/
private theorem potential_step {a : QueueAct T V} (h : s.Sound)
    (hwait : ∀ t, (s.pc t).waits = false) (hstep : s.step a = some s') :
    (!a.isCall).toNat + s'.potential ≤
      s.potential + (16 * Fintype.card T + 20) * a.isCall.toNat := by
  cases steps_of_step hstep with
  | @enq t v r hp =>
    have hnext : (s.alloc v).debt = s.debt := debt_congr rfl rfl (followed_alloc s v)
    have hcall : ((s.alloc v).goto t (.enqTail v s.heap.length)).potential ≤
        s.potential + (16 * Fintype.card T + 20) :=
      potential_call rfl hnext rfl (by simp [debt, Pc.left, outdated]) (Nat.le_refl _)
    simpa [QueueAct.isCall] using hcall
  | @deq t wait r hp =>
    have hcall : (s.goto t (.deqHead wait)).potential ≤
        s.potential + (16 * Fintype.card T + 20) :=
      potential_call rfl rfl rfl (by simp [debt, Pc.left, outdated]) (Nat.le_succ _)
    simpa [QueueAct.isCall] using hcall
  | @go t s' hgo =>
    have hlt := potential_go h (hwait t) hgo
    simp only [QueueAct.isCall, Bool.not_false, Bool.toNat_true, Bool.toNat_false]
    omega

end Potential

/-- Nobody gets into `wait_deq` without calling it. -/
private theorem waits_step [DecidableEq T] {a : QueueAct T V} (h : ∀ t, (s.pc t).waits = false)
    (ha : a.waits = false) (hstep : s.step a = some s') : ∀ t, (s'.pc t).waits = false := by
  have hgoto {s₁ : Queue T V} {t : T} {pc : Pc V} (hpc : s₁.pc = s.pc) (hw : pc.waits = false) :
      ∀ u, ((s₁.goto t pc).pc u).waits = false := by
    intro u
    by_cases hut : u = t
    · subst hut
      rw [pc_goto_self]
      exact hw
    · rw [pc_goto_of_ne s₁ hut, hpc]
      exact h u
  cases steps_of_step hstep with
  | enq hp => exact hgoto rfl rfl
  | deq hp => exact hgoto rfl ha
  | @go t s' hgo =>
    have hown := h t
    cases go_moves hgo with
    | enqSwing hp | enqHelp hp | deqHelp hp =>
      rw [hp] at hown
      exact hgoto (pc_casTail _ _ _) hown
    | enqTail hp | enqNext hp | enqLast hp | enqLags hp | enqMoved hp | link hp | linkLost hp
    | deqHead hp | deqTail hp | deqAgain hp | deqNext hp | nothing hp | sleep hp | deqLags hp
    | deqFound hp | deqMoved hp | deqRead hp | swing hp | swingLost hp | deqDown hp | waitDown hp
    | waitUp hp =>
      rw [hp] at hown
      exact hgoto rfl hown
    | enqUp | deqFree => exact hgoto rfl rfl

end Queue

/-- For any number of threads and any interleaving: without calls of `wait_deq` there are only so
many steps for so many calls, and as long as a call is under way some thread can go on. -/
theorem headway_of_nowait (T : Type) [DecidableEq T] [Fintype T] {V : Type} (junk : V)
    (acts : List (QueueAct T V)) (s : Queue T V) (hwait : ∀ a ∈ acts, a.waits = false)
    (hrun : (lockFreeQueue T junk).run (.new junk) acts = some s) :
    acts.countP (!·.isCall) ≤ (16 * Fintype.card T + 20) * acts.countP (·.isCall) ∧
      ((∃ t, (s.pc t).isIdle = false) → ∃ t, (s.go t).isSome = true) := by
  have hreach : (lockFreeQueue T junk).Reachable s := ⟨acts, hrun⟩
  have hstart : (Queue.new junk : Queue T V).Sound ∧
      ∀ t, ((Queue.new junk : Queue T V).pc t).waits = false :=
    ⟨Queue.sound_new junk, fun _ ↦ rfl⟩
  obtain ⟨⟨-, hnone⟩, hcosts⟩ := Machine.countP_of_run (lockFreeQueue T junk)
    (J := fun s ↦ s.Sound ∧ ∀ t, (s.pc t).waits = false) (D := fun a ↦ a.waits = false)
    (p := (!·.isCall)) (q := (·.isCall))
    (fun _ _ _ hs ha hstep ↦ ⟨⟨hs.1.step hstep, Queue.waits_step hs.2 ha hstep⟩,
      Queue.potential_step hs.1 hs.2 hstep⟩) hstart hwait hrun
  constructor
  · rw [Queue.potential_new, Nat.zero_add] at hcosts
    exact Nat.le_of_add_right_le hcosts
  · rintro ⟨t, ht⟩
    by_contra hstuck
    have hall : ∀ u, s.go u = none := by
      intro u
      by_contra hne
      exact hstuck ⟨u, Option.isSome_iff_ne_none.mpr hne⟩
    rcases (accounted_of_reachable T junk s hreach).stuck hall t with hidle | ⟨hsleep, -⟩
    · cases ht.symm.trans hidle
    · have hown := hnone t
      rw [hsleep] at hown
      cases hown

/-- One thread enqueues something. -/
theorem headway_of_nowait_enq : ([.enq () 5, .go (), .go (), .go (), .go (), .go (), .go ()] :
    List (QueueAct Unit Nat)).countP (!·.isCall) ≤ (16 * Fintype.card Unit + 20) * 1 :=
  (headway_of_nowait Unit 0 [.enq () 5, .go (), .go (), .go (), .go (), .go (), .go ()] _
    (by decide) rfl).1

/-! ### Waiting -/

section Waiting

variable [DecidableEq T] {s : Queue T V} {t : T}

/-- A call of `wait_deq` is at an empty queue whose semaphore has a unit that another call is about
to take. -/
structure Queue.Spins (s : Queue T V) (t : T) : Prop where
  pc : s.pc t = .deqHead true
  last : s.tail = s.head
  next : ∃ d, s.heap[s.head]? = some d ∧ d.next = none
  unit : 0 < s.sz

/-- It takes the unit, gives it back, and is where it was. -/
private theorem Queue.Spins.round (h : s.Spins t) (junk : V) :
    ∃ s', (lockFreeQueue T junk).run s (List.replicate 7 (.go t)) = some s' ∧ s'.Spins t := by
  obtain ⟨d, hd, hnone⟩ := h.next
  have hpc := h.pc
  have hunit := h.unit
  refine ⟨((s.setSz (s.sz - 1)).setSz (s.sz - 1 + 1)).goto t (.deqHead true), ?_, ?_⟩
  · simp [Machine.run, lockFreeQueue, step, go, hpc, goto, h.last, hd, hnone, setSz, hunit]
  · exact ⟨pc_goto_self _ t _, h.last, ⟨d, hd, hnone⟩, Nat.succ_pos _⟩

private theorem Queue.Spins.rounds (h : s.Spins t) (junk : V) (k : Nat) :
    ∃ s', (lockFreeQueue T junk).run s (List.replicate (7 * k) (.go t)) = some s' := by
  induction k generalizing s with
  | zero => exact ⟨s, rfl⟩
  | succ k ih =>
    obtain ⟨s₁, hs₁, hspins⟩ := h.round junk
    obtain ⟨s₂, hs₂⟩ := ih hspins
    refine ⟨s₂, ?_⟩
    rw [Nat.mul_succ, Nat.add_comm, List.replicate_add, Machine.run_append, hs₁]
    exact hs₂

end Waiting

/-- Thread 0 has taken the only node and not called `down`; thread 1 waits. No number of steps for
each call is enough. -/
theorem not_headway_wait : ¬ ∃ b, ∀ (acts : List (QueueAct (Fin 2) Nat)) s,
    (lockFreeQueue (Fin 2) 0).run (.new 0) acts = some s →
      acts.countP (!·.isCall) ≤ b * acts.countP (·.isCall) := by
  rintro ⟨b, hb⟩
  let acts : List (QueueAct (Fin 2) Nat) :=
    .enq 0 5 :: List.replicate 6 (.go 0) ++ .deq 0 false :: List.replicate 7 (.go 0) ++ [.deq 1 true]
  obtain ⟨s, hs, hspins⟩ :
      ∃ s, (lockFreeQueue (Fin 2) 0).run (.new 0) acts = some s ∧ s.Spins 1 :=
    ⟨_, rfl, rfl, rfl, ⟨_, rfl, rfl⟩, by decide⟩
  obtain ⟨s', hs'⟩ := hspins.rounds 0 (b + 1)
  let more : List (QueueAct (Fin 2) Nat) := List.replicate (7 * (b + 1)) (.go 1)
  have hle := hb (acts ++ more) s' (by
    rw [Machine.run_append, hs]
    exact hs')
  have hsteps : (acts ++ more).countP (!·.isCall) = 13 + 7 * (b + 1) := by
    rw [List.countP_append, List.countP_replicate]
    rfl
  have hcalls : (acts ++ more).countP (·.isCall) = 3 := by
    rw [List.countP_append, List.countP_replicate]
    rfl
  rw [hsteps, hcalls] at hle
  omega

end Filth.LockFree
