import Filth.Base.Simulation
import Filth.Queue.Reclaim
import Mathlib.Data.Fintype.Basic

/-!
# The lock-free queue on a heap that reuses addresses

`new node(t)` may return the address of a node that has been deleted, and a thread that still has
this address takes the one for the other: the ABA problem, `src/LockFreeQueue.hpp:16–24`. As long as
no address comes back that a thread in a call still has, the queue does what it does when no
address comes back at all.
-/

namespace Filth.LockFree

open Base

variable {T V : Type}

/-- Calls and steps. A call of `enq` comes with the address that `new` returns. -/
inductive RecycleAct (T V : Type) where
  | enq (t : T) (v : V) (n : Addr)
  | deq (t : T) (wait : Bool)
  | go (t : T)
  deriving DecidableEq, Repr

/-- The same on a heap that reuses nothing. -/
def RecycleAct.plain : RecycleAct T V → QueueAct T V
  | enq t v _ => .enq t v
  | deq t wait => .deq t wait
  | go t => .go t

/-- The nodes that a thread has in its local variables. -/
def Pc.holds : Pc V → List Addr
  | idle _ | enqUp | deqHead _ | waitDown | waitUp => []
  | enqTail _ n => [n]
  | enqNext _ n last | enqLink _ n last | enqSwing n last => [n, last]
  | enqTest _ n last next => n :: last :: next.toList
  | enqHelp _ n last next => [n, last, next]
  | deqTail _ first | deqDown _ first _ | deqFree _ first _ => [first]
  | deqAgain _ first last => [first, last]
  | deqNext _ first last again => [first, last, again]
  | deqTest _ first last next => first :: last :: next.toList
  | deqHelp _ last next => [last, next]
  | deqRead _ first next => first :: next.toList
  | deqSwing _ first next _ => [first, next]

/-- What a call has returned, if the thread is in none. -/
def Pc.returned : Pc V → Option (Option (Ret V))
  | idle ret => some ret
  | _ => none

/-- The allocator does not return the address of a deleted node that a thread still has. -/
def RecycleAct.Spares (s : Queue T V) : RecycleAct T V → Prop
  | enq _ _ n => n < s.heap.length → ∀ u, n ∉ (s.pc u).holds
  | _ => True

instance [Fintype T] (s : Queue T V) (a : RecycleAct T V) : Decidable (a.Spares s) :=
  match a with
  | .enq _ _ n => inferInstanceAs (Decidable (n < s.heap.length → ∀ u, n ∉ (s.pc u).holds))
  | .deq _ _ | .go _ => .isTrue trivial

namespace Queue

/-- `new node(t)` at this address, which is a new one or that of a deleted node;
`src/LockFreeQueue.hpp:60`. -/
def recycle (s : Queue T V) (v : V) (n : Addr) : Option (Queue T V) :=
  if n = s.heap.length then some (s.alloc v)
  else if (s.heap[n]?.map Node.freed).getD false then
    some { s with heap := s.heap.set n { t := v, next := none, freed := false } }
  else none

variable [DecidableEq T]

/-- One step. -/
def recycleStep (s : Queue T V) : RecycleAct T V → Option (Queue T V)
  | .enq t v n =>
    match s.pc t with
    | .idle _ => (s.recycle v n).map fun s ↦ s.goto t (.enqTail v n)
    | _ => none
  | .deq t wait => s.step (.deq t wait)
  | .go t => s.step (.go t)

end Queue

/-- Any number of threads that use a queue, on a heap that reuses addresses. -/
def recyclingQueue (T : Type) [DecidableEq T] {V : Type} (junk : V) :
    Machine (Queue T V) (RecycleAct T V) where
  init := .new junk
  step := Queue.recycleStep

/-! ### A queue and its mirror image -/

/-- The place is the same, and so are the local variables but for the names of the nodes. A `next`
may be another one if the test that comes next fails. -/
inductive Pc.Like (R : Addr → Addr → Prop) (passed : Addr → Prop) : Pc V → Pc V → Prop where
  | idle {r} : Like R passed (.idle r) (.idle r)
  | enqTail {v n n'} (hn : R n n') : Like R passed (.enqTail v n) (.enqTail v n')
  | enqNext {v n n' last last'} (hn : R n n') (hlast : R last last') :
      Like R passed (.enqNext v n last) (.enqNext v n' last')
  | enqTest {v n n' last last' next next'} (hn : R n n') (hlast : R last last')
      (hnext : passed last' ∨ Option.Rel R next next') :
      Like R passed (.enqTest v n last next) (.enqTest v n' last' next')
  | enqLink {v n n' last last'} (hn : R n n') (hlast : R last last') :
      Like R passed (.enqLink v n last) (.enqLink v n' last')
  | enqSwing {n n' last last'} (hn : R n n') (hlast : R last last') :
      Like R passed (.enqSwing n last) (.enqSwing n' last')
  | enqUp : Like R passed .enqUp .enqUp
  | enqHelp {v n n' last last' next next'} (hn : R n n') (hlast : R last last')
      (hnext : R next next') : Like R passed (.enqHelp v n last next) (.enqHelp v n' last' next')
  | deqHead {wait} : Like R passed (.deqHead wait) (.deqHead wait)
  | deqTail {wait first first'} (hfirst : R first first') :
      Like R passed (.deqTail wait first) (.deqTail wait first')
  | deqAgain {wait first first' last last'} (hfirst : R first first') (hlast : R last last') :
      Like R passed (.deqAgain wait first last) (.deqAgain wait first' last')
  | deqNext {wait first first' last last' again again'} (hfirst : R first first')
      (hlast : R last last') (hagain : R again again') :
      Like R passed (.deqNext wait first last again) (.deqNext wait first' last' again')
  | deqTest {wait first first' last last' next next'} (hfirst : R first first')
      (hlast : R last last') (hnext : passed first' ∨ Option.Rel R next next') :
      Like R passed (.deqTest wait first last next) (.deqTest wait first' last' next')
  | deqHelp {wait last last' next next'} (hlast : R last last') (hnext : R next next') :
      Like R passed (.deqHelp wait last next) (.deqHelp wait last' next')
  | deqRead {wait first first' next next'} (hfirst : R first first')
      (hnext : Option.Rel R next next') :
      Like R passed (.deqRead wait first next) (.deqRead wait first' next')
  | deqSwing {wait first first' next next' v} (hfirst : R first first') (hnext : R next next') :
      Like R passed (.deqSwing wait first next v) (.deqSwing wait first' next' v)
  | deqDown {wait first first' v} (hfirst : R first first') :
      Like R passed (.deqDown wait first v) (.deqDown wait first' v)
  | deqFree {wait first first' v} (hfirst : R first first') :
      Like R passed (.deqFree wait first v) (.deqFree wait first' v)
  | waitDown : Like R passed .waitDown .waitDown
  | waitUp : Like R passed .waitUp .waitUp

/-- Other names, as long as the nodes that the thread has keep theirs, and more nodes passed. -/
theorem Pc.Like.mono {R R' : Addr → Addr → Prop} {passed passed' : Addr → Prop} {p q : Pc V}
    (h : Pc.Like R passed p q) (hR : ∀ x y, x ∈ p.holds → R x y → R' x y)
    (hpassed : ∀ y, passed y → passed' y) : Pc.Like R' passed' p q := by
  have hopt {a b : Option Addr} (hab : Option.Rel R a b) (ha : ∀ x ∈ a, x ∈ p.holds) :
      Option.Rel R' a b := by
    cases hab with
    | none => exact .none
    | some hxy => exact .some (hR _ _ (ha _ rfl) hxy)
  cases h with
  | idle => exact .idle
  | enqTail hn => exact .enqTail (hR _ _ (by simp [holds]) hn)
  | enqNext hn hlast =>
    exact .enqNext (hR _ _ (by simp [holds]) hn) (hR _ _ (by simp [holds]) hlast)
  | enqTest hn hlast hnext =>
    refine .enqTest (hR _ _ (by simp [holds]) hn) (hR _ _ (by simp [holds]) hlast) ?_
    exact hnext.imp (hpassed _) fun hrel ↦ hopt hrel (by simp +contextual [holds])
  | enqLink hn hlast =>
    exact .enqLink (hR _ _ (by simp [holds]) hn) (hR _ _ (by simp [holds]) hlast)
  | enqSwing hn hlast =>
    exact .enqSwing (hR _ _ (by simp [holds]) hn) (hR _ _ (by simp [holds]) hlast)
  | enqUp => exact .enqUp
  | enqHelp hn hlast hnext =>
    exact .enqHelp (hR _ _ (by simp [holds]) hn) (hR _ _ (by simp [holds]) hlast)
      (hR _ _ (by simp [holds]) hnext)
  | deqHead => exact .deqHead
  | deqTail hfirst => exact .deqTail (hR _ _ (by simp [holds]) hfirst)
  | deqAgain hfirst hlast =>
    exact .deqAgain (hR _ _ (by simp [holds]) hfirst) (hR _ _ (by simp [holds]) hlast)
  | deqNext hfirst hlast hagain =>
    exact .deqNext (hR _ _ (by simp [holds]) hfirst) (hR _ _ (by simp [holds]) hlast)
      (hR _ _ (by simp [holds]) hagain)
  | deqTest hfirst hlast hnext =>
    refine .deqTest (hR _ _ (by simp [holds]) hfirst) (hR _ _ (by simp [holds]) hlast) ?_
    exact hnext.imp (hpassed _) fun hrel ↦ hopt hrel (by simp +contextual [holds])
  | deqHelp hlast hnext =>
    exact .deqHelp (hR _ _ (by simp [holds]) hlast) (hR _ _ (by simp [holds]) hnext)
  | deqRead hfirst hnext =>
    exact .deqRead (hR _ _ (by simp [holds]) hfirst) (hopt hnext (by simp +contextual [holds]))
  | deqSwing hfirst hnext =>
    exact .deqSwing (hR _ _ (by simp [holds]) hfirst) (hR _ _ (by simp [holds]) hnext)
  | deqDown hfirst => exact .deqDown (hR _ _ (by simp [holds]) hfirst)
  | deqFree hfirst => exact .deqFree (hR _ _ (by simp [holds]) hfirst)
  | waitDown => exact .waitDown
  | waitUp => exact .waitUp

/-- What is returned has no names in it. -/
theorem Pc.Like.returned {R : Addr → Addr → Prop} {passed : Addr → Prop} {p q : Pc V}
    (h : Pc.Like R passed p q) : p.returned = q.returned := by
  cases h <;> rfl

theorem Pc.returned_eq_some {p : Pc V} {ret : Option (Ret V)} (h : p.returned = some ret) :
    p = .idle ret := by
  cases p with
  | idle r => exact congrArg Pc.idle (Option.some.inj h)
  | _ => cases h

namespace Queue

/-- The node at `x` has the name `y`. -/
abbrev Named (names : List Addr) (x y : Addr) : Prop := names[x]? = some y

/-- `head` has been swung past this node. -/
def Passed (s : Queue T V) (y : Addr) : Prop := ∃ k, k < s.taken.length ∧ s.At k y

/-- The queue `s` is the mirror image of `r`, with its own names for the nodes. Of a node that has
been passed, only whether it has a next one is the same. -/
structure Same (names : List Addr) (r s : Queue T V) : Prop where
  length : names.length = r.heap.length
  inj : ∀ x x' y, Named names x y → Named names x' y → x = x'
  node : ∀ x y, Named names x y → ∃ d e, r.heap[x]? = some d ∧ s.heap[y]? = some e ∧
    d.t = e.t ∧ d.freed = e.freed ∧ (d.next = none ↔ e.next = none)
  ahead : ∀ x y k d e, Named names x y → s.At k y → s.taken.length ≤ k →
    r.heap[x]? = some d → s.heap[y]? = some e →
    Option.Rel (Named names) d.next e.next
  head : Named names r.head s.head
  tail : Named names r.tail s.tail
  sz : r.sz = s.sz
  linked : r.linked.map Prod.snd = s.linked.map Prod.snd
  taken : r.taken.map Prod.snd = s.taken.map Prod.snd

/-- And the threads are at the same places. -/
structure Mirrors (names : List Addr) (r s : Queue T V) : Prop where
  same : Same names r s
  pc : ∀ t, Pc.Like (Named names) s.Passed (r.pc t) (s.pc t)

variable {names : List Addr} {r r' r₁ s s₁ : Queue T V} {t : T} {x x' y y' n n' : Addr} {v : V}
  {p q : Pc V}

theorem Passed.later (h : s.Passed y) (hl : s.Later s₁) : s₁.Passed y := by
  obtain ⟨k, hk, hat⟩ := h
  exact ⟨k, Nat.lt_of_lt_of_le hk hl.taken, hat.of_prefix hl.linked⟩

/-- Equal here, equal there. -/
theorem Same.eq_iff (h : Same names r s) (hx : Named names x y) (hx' : Named names x' y') :
    x = x' ↔ y = y' := by
  constructor
  · rintro rfl
    exact Option.some.inj (hx.symm.trans hx')
  · rintro rfl
    exact h.inj x x' y hx hx'

/-- `head` has not passed the node that it is at, nor `tail`. -/
theorem Sound.not_passed (h : s.Sound) {k : Nat} (hat : s.At k y) (hk : s.taken.length ≤ k) :
    ¬ s.Passed y := by
  rintro ⟨j, hj, hat'⟩
  have := h.shape.place_unique hat hat'
  omega

/-- The same node is changed on both sides. -/
theorem Same.modify (h : Same names r s) (hx : Named names x y) {z w : Addr} (hz : Named names z w)
    {d e : Node V} (hd : r.heap[z]? = some d) (he : s.heap[w]? = some e) (f g : Node V → Node V) :
    (r.heap.modify x f)[z]? = some (if x = z then f d else d) ∧
      (s.heap.modify y g)[w]? = some (if x = z then g e else e) := by
  rw [List.getElem?_modify, List.getElem?_modify, hd, he]
  by_cases hxz : x = z
  · have hyw := (h.eq_iff hx hz).mp hxz
    rw [if_pos hxz, if_pos hxz]
    simp [hxz, hyw]
  · have hyw := mt (h.eq_iff hx hz).mpr hxz
    rw [if_neg hxz, if_neg hxz]
    simp [hxz, hyw]

/-! ### Changes of both -/

theorem Same.setSz (h : Same names r s) (sz : Nat) : Same names (r.setSz sz) (s.setSz sz) :=
  ⟨h.length, h.inj, h.node, h.ahead, h.head, h.tail, rfl, h.linked, h.taken⟩

theorem Same.casTail (h : Same names r s) (hx : Named names x y) (hn : Named names n n') :
    Same names (r.casTail x n) (s.casTail y n') := by
  unfold Queue.casTail
  have htail := h.eq_iff h.tail hx
  by_cases heq : r.tail = x
  · rw [if_pos heq, if_pos (htail.mp heq)]
    exact ⟨h.length, h.inj, h.node, h.ahead, h.head, hn, h.sz, h.linked, h.taken⟩
  · rw [if_neg heq, if_neg (mt htail.mpr heq)]
    exact h

theorem Same.swing (h : Same names r s) (hn : Named names n n') (v : V) :
    Same names (r.swing n v) (s.swing n' v) := by
  refine ⟨h.length, h.inj, h.node, fun x y k d e hx hat hk ↦ ?_, hn, h.tail, h.sz, h.linked, ?_⟩
  · have hlen : (s.swing n' v).taken.length = s.taken.length + 1 := by simp [Queue.swing]
    exact h.ahead x y k d e hx hat (by omega)
  · simp [Queue.swing, h.taken]

theorem Same.free (h : Same names r s) (hx : Named names x y) :
    Same names (r.free x) (s.free y) := by
  refine ⟨by simp [Queue.free, h.length], h.inj, fun z w hz ↦ ?_,
    fun z w k d e hz hat hk hd he ↦ ?_,
    h.head, h.tail, h.sz, h.linked, h.taken⟩
  · obtain ⟨d, e, hd, he, ht, hfreed, hnext⟩ := h.node z w hz
    obtain ⟨hd', he'⟩ := h.modify hx hz hd he _ _
    refine ⟨_, _, hd', he', ?_⟩
    split
    · exact ⟨ht, rfl, hnext⟩
    · exact ⟨ht, hfreed, hnext⟩
  · obtain ⟨d₀, e₀, hd₀, he₀, -⟩ := h.node z w hz
    obtain ⟨hd', he'⟩ := h.modify hx hz hd₀ he₀ _ _
    cases hd'.symm.trans hd
    cases he'.symm.trans he
    have hrel := h.ahead z w k d₀ e₀ hz hat hk hd₀ he₀
    split <;> exact hrel

theorem Same.link (h : Same names r s) (hx : Named names x y) (hn : Named names n n')
    (hfresh : s.heap[n']? = some { t := v, next := none, freed := false }) (hxn : y ≠ n') :
    Same names (r.link x n v) (s.link y n' v) := by
  refine ⟨by simp [Queue.link, h.length], h.inj, fun z w hz ↦ ?_,
    fun z w k d e hz hat hk hd he ↦ ?_,
    h.head, h.tail, h.sz, by simp [Queue.link, h.linked], h.taken⟩
  · obtain ⟨d, e, hd, he, ht, hfreed, hnext⟩ := h.node z w hz
    obtain ⟨hd', he'⟩ := h.modify hx hz hd he _ _
    refine ⟨_, _, hd', he', ?_⟩
    split
    · exact ⟨ht, hfreed, by simp⟩
    · exact ⟨ht, hfreed, hnext⟩
  · obtain ⟨d₀, e₀, hd₀, he₀, -, -, hnone⟩ := h.node z w hz
    obtain ⟨hd', he'⟩ := h.modify hx hz hd₀ he₀ _ _
    cases hd'.symm.trans hd
    cases he'.symm.trans he
    split
    · exact .some hn
    · rcases at_of_link hat with hold | ⟨-, rfl⟩
      · exact h.ahead z w k d₀ e₀ hz hold hk hd₀ he₀
      · -- the node that has just been linked
        cases hfresh.symm.trans he₀
        rw [hnone.mpr rfl]
        exact .none

/-! ### Steps of both -/

variable [DecidableEq T]

/-- A thread goes on, on both sides. -/
theorem Mirrors.goto (h : Mirrors names r s) (hsame : Same names r₁ s₁) (hr : r₁.pc = r.pc)
    (hs : s₁.pc = s.pc) (hl : s.Later s₁) (hpc : Pc.Like (Named names) s₁.Passed p q) :
    Mirrors names (r₁.goto t p) (s₁.goto t q) := by
  refine ⟨⟨hsame.length, hsame.inj, hsame.node, hsame.ahead, hsame.head, hsame.tail, hsame.sz,
    hsame.linked, hsame.taken⟩, fun u ↦ ?_⟩
  by_cases hut : u = t
  · subst hut
    rw [pc_goto_self, pc_goto_self]
    exact hpc
  · rw [pc_goto_of_ne _ hut, pc_goto_of_ne _ hut, hr, hs]
    exact (h.pc u).mono (fun _ _ _ ↦ id) fun y (hy : s.Passed y) ↦ (hy.later hl : s₁.Passed y)

/-- If only the thread goes on. -/
theorem Mirrors.still (h : Mirrors names r s) (hpc : Pc.Like (Named names) s.Passed p q) :
    Mirrors names (r.goto t p) (s.goto t q) :=
  h.goto h.same rfl rfl ⟨List.prefix_rfl, Nat.le_refl _, Nat.le_refl _⟩ hpc

omit [DecidableEq T] in
/-- What is read from a node that `head` has not passed is the same. -/
theorem Same.next (h : Same names r s) (hx : Named names x y) {k : Nat} (hat : s.At k y)
    {d e : Node V} (hd : r.heap[x]? = some d) (he : s.heap[y]? = some e) :
    s.Passed y ∨ Option.Rel (Named names) d.next e.next := by
  rcases Nat.lt_or_ge k s.taken.length with hlt | hge
  · exact .inl ⟨k, hlt, hat⟩
  · exact .inr (h.ahead x y k d e hx hat hge hd he)

omit [DecidableEq T] in
/-- `tail` is at a node that has not been passed, and so is `head`. -/
private theorem Sound.ahead_tail (h : s.Sound) (hy : s.tail = y) : ¬ s.Passed y :=
  h.not_passed (hy ▸ h.shape.tail) h.shape.order

omit [DecidableEq T] in
private theorem Sound.ahead_head (h : s.Sound) (hy : s.head = y) : ¬ s.Passed y :=
  h.not_passed (hy ▸ h.shape.head) (Nat.le_refl _)

/-- A step of a thread in a call. -/
theorem Mirrors.go (h : Mirrors names r s) (hs : s.Sound) (hgo : r.go t = some r') :
    ∃ s', s.go t = some s' ∧ Mirrors names r' s' := by
  have hlike := h.pc t
  have hknows := hs.knows t
  have hsame := h.same
  generalize hp : r.pc t = p at hlike
  generalize hq : s.pc t = q at hlike hknows
  cases hlike with
  | idle =>
    simp only [Queue.go, hp] at hgo
    cases hgo
  | enqTail hn =>
    simp only [Queue.go, hp] at hgo
    cases hgo
    exact ⟨_, by simp only [Queue.go, hq], h.still (.enqNext hn hsame.tail)⟩
  | enqNext hn hlast =>
    obtain ⟨k, hat⟩ := hknows
    obtain ⟨d, e, hd, he, -⟩ := hsame.node _ _ hlast
    simp only [Queue.go, hp, hd] at hgo
    cases hgo
    refine ⟨_, by simp only [Queue.go, hq, he]; rfl, h.still (.enqTest hn hlast ?_)⟩
    exact hsame.next hlast hat hd he
  | enqTest hn hlast hnext =>
    have htail := hsame.eq_iff hsame.tail hlast
    simp only [Queue.go, hp] at hgo
    split at hgo
    · next heq =>
      have heq' := htail.mp heq
      cases hnext.resolve_left (hs.ahead_tail heq') with
      | none =>
        cases hgo
        exact ⟨_, by simp only [Queue.go, hq, if_pos heq'], h.still (.enqLink hn hlast)⟩
      | some hx =>
        cases hgo
        exact ⟨_, by simp only [Queue.go, hq, if_pos heq'], h.still (.enqHelp hn hlast hx)⟩
    · next hne =>
      cases hgo
      exact ⟨_, by simp only [Queue.go, hq, if_neg (mt htail.mpr hne)], h.still (.enqTail hn)⟩
  | @enqLink v n n' last last' hn hlast =>
    obtain ⟨k, hat⟩ := hknows
    obtain ⟨d, e, hd, he, -, -, hnone⟩ := hsame.node _ _ hlast
    simp only [Queue.go, hp, hd] at hgo
    obtain ⟨hchain, hfresh⟩ := hs.owning.fresh t v n' (by rw [hq]; rfl)
    have hne : last' ≠ n' := by
      rintro rfl
      exact hchain hat.mem
    by_cases hd' : d.next = none
    · simp only [Option.bind_eq_bind, Option.bind_some, if_pos hd', pure] at hgo
      cases hgo
      refine ⟨_, by simp only [Queue.go, hq, he, Option.bind_eq_bind, Option.bind_some,
        if_pos (hnone.mp hd'), pure], h.goto (hsame.link hlast hn hfresh hne) rfl rfl
        (later_link _ _ _ _) (.enqSwing hn hlast)⟩
    · simp only [Option.bind_eq_bind, Option.bind_some, if_neg hd', pure] at hgo
      cases hgo
      exact ⟨_, by simp only [Queue.go, hq, he, Option.bind_eq_bind, Option.bind_some,
        if_neg (mt hnone.mpr hd'), pure], h.still (.enqTail hn)⟩
  | enqSwing hn hlast =>
    simp only [Queue.go, hp] at hgo
    cases hgo
    exact ⟨_, by simp only [Queue.go, hq], h.goto (hsame.casTail hlast hn) (pc_casTail _ _ _)
      (pc_casTail _ _ _) (later_casTail _ _ _) .enqUp⟩
  | enqUp =>
    simp only [Queue.go, hp, hsame.sz] at hgo
    cases hgo
    exact ⟨_, by simp only [Queue.go, hq], h.goto (hsame.setSz _) rfl rfl
      ⟨List.prefix_rfl, Nat.le_refl _, Nat.le_refl _⟩ .idle⟩
  | enqHelp hn hlast hnext =>
    simp only [Queue.go, hp] at hgo
    cases hgo
    exact ⟨_, by simp only [Queue.go, hq], h.goto (hsame.casTail hlast hnext) (pc_casTail _ _ _)
      (pc_casTail _ _ _) (later_casTail _ _ _) (.enqTail hn)⟩
  | deqHead =>
    simp only [Queue.go, hp] at hgo
    cases hgo
    exact ⟨_, by simp only [Queue.go, hq], h.still (.deqTail hsame.head)⟩
  | deqTail hfirst =>
    simp only [Queue.go, hp] at hgo
    cases hgo
    exact ⟨_, by simp only [Queue.go, hq], h.still (.deqAgain hfirst hsame.tail)⟩
  | deqAgain hfirst hlast =>
    simp only [Queue.go, hp] at hgo
    cases hgo
    exact ⟨_, by simp only [Queue.go, hq], h.still (.deqNext hfirst hlast hsame.head)⟩
  | deqNext hfirst hlast hagain =>
    obtain ⟨i, j, k, hi, hj, hk, hij, hjt, -⟩ := hknows
    obtain ⟨d, e, hd, he, -⟩ := hsame.node _ _ hagain
    simp only [Queue.go, hp, hd] at hgo
    cases hgo
    refine ⟨_, by simp only [Queue.go, hq, he]; rfl, h.still (.deqTest hfirst hlast ?_)⟩
    -- the node has been passed only if the first one has
    rcases Nat.lt_or_ge i s.taken.length with hlt | hge
    · exact .inl ⟨i, hlt, hi⟩
    · exact .inr (hsame.ahead _ _ j d e hagain hj (by omega) hd he)
  | @deqTest wait first first' last last' next next' hfirst hlast hnext =>
    have hhead := hsame.eq_iff hsame.head hfirst
    have hlast' := hsame.eq_iff hfirst hlast
    simp only [Queue.go, hp] at hgo
    by_cases heq : r.head = first
    · have heq' := hhead.mp heq
      have hrel := hnext.resolve_left (hs.ahead_head heq')
      rw [if_pos heq] at hgo
      by_cases hfl : first = last
      · rw [if_pos hfl] at hgo
        cases hrel with
        | none =>
          cases hgo
          cases wait with
          | false =>
            exact ⟨_, by simp only [Queue.go, hq, if_pos heq', if_pos (hlast'.mp hfl)]; rfl,
              h.still .idle⟩
          | true =>
            exact ⟨_, by simp only [Queue.go, hq, if_pos heq', if_pos (hlast'.mp hfl)]; rfl,
              h.still .waitDown⟩
        | some hx =>
          cases hgo
          exact ⟨_, by simp only [Queue.go, hq, if_pos heq', if_pos (hlast'.mp hfl)],
            h.still (.deqHelp hlast hx)⟩
      · rw [if_neg hfl] at hgo
        cases hgo
        exact ⟨_, by simp only [Queue.go, hq, if_pos heq', if_neg (mt hlast'.mpr hfl)],
          h.still (.deqRead hfirst hrel)⟩
    · rw [if_neg heq] at hgo
      cases hgo
      exact ⟨_, by simp only [Queue.go, hq, if_neg (mt hhead.mpr heq)], h.still .deqHead⟩
  | deqHelp hlast hnext =>
    simp only [Queue.go, hp] at hgo
    cases hgo
    exact ⟨_, by simp only [Queue.go, hq], h.goto (hsame.casTail hlast hnext) (pc_casTail _ _ _)
      (pc_casTail _ _ _) (later_casTail _ _ _) .deqHead⟩
  | deqRead hfirst hnext =>
    cases hnext with
    | none =>
      simp only [Queue.go, hp] at hgo
      cases hgo
    | some hnext =>
      obtain ⟨d, e, hd, he, ht, -⟩ := hsame.node _ _ hnext
      simp only [Queue.go, hp, hd] at hgo
      cases hgo
      rw [ht]
      exact ⟨_, by simp only [Queue.go, hq, he]; rfl, h.still (.deqSwing hfirst hnext)⟩
  | deqSwing hfirst hnext =>
    have hhead := hsame.eq_iff hsame.head hfirst
    simp only [Queue.go, hp] at hgo
    split at hgo
    · next heq =>
      cases hgo
      exact ⟨_, by simp only [Queue.go, hq, if_pos (hhead.mp heq)], h.goto (hsame.swing hnext _)
        rfl rfl (later_swing _ _ _) (.deqDown hfirst)⟩
    · next hne =>
      cases hgo
      exact ⟨_, by simp only [Queue.go, hq, if_neg (mt hhead.mpr hne)], h.still .deqHead⟩
  | deqDown hfirst =>
    simp only [Queue.go, hp, hsame.sz] at hgo
    split at hgo
    · next hpos =>
      cases hgo
      exact ⟨_, by simp only [Queue.go, hq, if_pos hpos], h.goto (hsame.setSz _) rfl rfl
        ⟨List.prefix_rfl, Nat.le_refl _, Nat.le_refl _⟩ (.deqFree hfirst)⟩
    · cases hgo
  | deqFree hfirst =>
    simp only [Queue.go, hp] at hgo
    cases hgo
    exact ⟨_, by simp only [Queue.go, hq], h.goto (hsame.free hfirst) rfl rfl
      ⟨List.prefix_rfl, Nat.le_refl _, Nat.le_refl _⟩ .idle⟩
  | waitDown =>
    simp only [Queue.go, hp, hsame.sz] at hgo
    split at hgo
    · next hpos =>
      cases hgo
      exact ⟨_, by simp only [Queue.go, hq, if_pos hpos], h.goto (hsame.setSz _) rfl rfl
        ⟨List.prefix_rfl, Nat.le_refl _, Nat.le_refl _⟩ .waitUp⟩
    · cases hgo
  | waitUp =>
    simp only [Queue.go, hp, hsame.sz] at hgo
    cases hgo
    exact ⟨_, by simp only [Queue.go, hq], h.goto (hsame.setSz _) rfl rfl
      ⟨List.prefix_rfl, Nat.le_refl _, Nat.le_refl _⟩ .deqHead⟩

/-! ### New nodes -/

/-- All but the last are as they were. -/
theorem getElem?_concat_of_ne {α : Type} (l : List α) (a : α) {k : Nat} (hk : k ≠ l.length) :
    (l ++ [a])[k]? = l[k]? := by
  rw [List.getElem?_append]
  split
  · rfl
  · rw [List.getElem?_singleton, if_neg (by omega), List.getElem?_eq_none (by omega)]

omit [DecidableEq T] in
/-- What `new` can have done: the node is the last one of the heap, or where a deleted one was. -/
private theorem recycle_cases (h : r.recycle v n = some r₁) :
    r₁.pc = r.pc ∧ r₁.head = r.head ∧ r₁.tail = r.tail ∧ r₁.sz = r.sz ∧ r₁.linked = r.linked ∧
      r₁.taken = r.taken ∧ r₁.heap[n]? = some { t := v, next := none, freed := false } ∧
      (∀ x, x ≠ n → r₁.heap[x]? = r.heap[x]?) ∧
      (n = r.heap.length ∧ r₁.heap.length = n + 1 ∨
        r₁.heap.length = r.heap.length ∧ ∃ d, r.heap[n]? = some d ∧ d.freed = true) := by
  unfold recycle at h
  split at h
  · next hn =>
    cases h
    subst hn
    exact ⟨rfl, rfl, rfl, rfl, rfl, rfl, by simp [alloc],
      fun x hx ↦ getElem?_concat_of_ne r.heap _ hx, .inl ⟨rfl, by simp [alloc]⟩⟩
  · split at h
    · next hfreed =>
      cases h
      cases hd : r.heap[n]? with
      | none => simp [hd] at hfreed
      | some d =>
        have hlt := (List.getElem?_eq_some_iff.mp hd).1
        refine ⟨rfl, rfl, rfl, rfl, rfl, rfl, by simp [hlt], fun x hx ↦ ?_,
          .inr ⟨by simp, d, rfl, ?_⟩⟩
        · simp [Ne.symm hx]
        · simpa [hd] using hfreed
    · cases h

/-- The names with one for the new node. -/
def rename (names : List Addr) (n y : Addr) : List Addr :=
  if n = names.length then names ++ [y] else names.set n y

private theorem named_rename_self (h : n ≤ names.length) : Named (rename names n y) n y := by
  unfold Named rename
  split
  · next hn => simp [hn]
  · next hn => simp [Nat.lt_of_le_of_ne h hn]

private theorem named_rename_of_ne (hx : x ≠ n) :
    Named (rename names n y) x y' ↔ Named names x y' := by
  unfold Named rename
  split
  · next hn =>
    subst hn
    rw [getElem?_concat_of_ne names y hx]
  · rw [List.getElem?_set_ne (Ne.symm hx)]

/-- A call of `enq` begins: the node that it gets is not one that anybody still looks at. -/
theorem Mirrors.enq (h : Mirrors names r s) (hs : s.Sound) (hr : s.Reclaimed)
    (hrecycle : r.recycle v n = some r₁)
    (hspares : n < r.heap.length → ∀ u, n ∉ (r.pc u).holds) :
    Mirrors (rename names n s.heap.length) (r₁.goto t (.enqTail v n))
      ((s.alloc v).goto t (.enqTail v s.heap.length)) := by
  obtain ⟨hpc, hhead, htail, hsz, hlinked, htaken, hnew, hold, hwhere⟩ := recycle_cases hrecycle
  have hsame := h.same
  have hle : n ≤ names.length := by
    rw [hsame.length]
    rcases hwhere with ⟨rfl, -⟩ | ⟨-, d, hd, -⟩
    · exact Nat.le_refl _
    · exact Nat.le_of_lt (List.getElem?_eq_some_iff.mp hd).1
  have hself : Named (rename names n s.heap.length) n s.heap.length := named_rename_self hle
  have hother {x y : Addr} (hx : x ≠ n) :
      Named (rename names n s.heap.length) x y ↔ Named names x y := named_rename_of_ne hx
  -- what was at this address has been passed
  have hgone {y : Addr} {k : Nat} (hn : Named names n y) (hat : s.At k y) :
      k < s.taken.length := by
    obtain ⟨d, e, hd, he, -, hfreed, -⟩ := hsame.node n y hn
    rcases hwhere with ⟨rfl, -⟩ | ⟨-, d', hd', hfreed'⟩
    · rw [List.getElem?_eq_none (Nat.le_refl _)] at hd
      cases hd
    · cases hd.symm.trans hd'
      obtain ⟨j, hj, hat'⟩ := hr.freed y e he (hfreed ▸ hfreed')
      rwa [hs.shape.place_unique hat hat']
  have hne {x y : Addr} {k : Nat} (hx : Named names x y) (hat : s.At k y)
      (hk : s.taken.length ≤ k) : x ≠ n := by
    rintro rfl
    have := hgone hx hat
    omega
  have hfresh {x y : Addr} (hx : Named names x y) : y < s.heap.length := by
    obtain ⟨d, e, -, he, -⟩ := hsame.node x y hx
    exact (List.getElem?_eq_some_iff.mp he).1
  have halloc {y : Addr} {e : Node V} (he : s.heap[y]? = some e) :
      (s.alloc v).heap[y]? = some e := getElem?_of_prefix (List.prefix_append _ _) he
  have hlast : (s.alloc v).heap[s.heap.length]? =
      some { t := v, next := none, freed := false } := by simp [alloc]
  refine ⟨⟨?_, fun x x' y hx hx' ↦ ?_, fun x y hx ↦ ?_, fun x y k d e hx hat hk hd he ↦ ?_, ?_, ?_,
    hsz.trans hsame.sz, ?_, ?_⟩, fun u ↦ ?_⟩
  · change _ = r₁.heap.length
    unfold rename
    rcases hwhere with ⟨hn, hlen⟩ | ⟨hlen, d, hd, -⟩
    · rw [if_pos (hn.trans hsame.length.symm), hlen, List.length_append, hsame.length, hn]
      rfl
    · have hlt := (List.getElem?_eq_some_iff.mp hd).1
      rw [if_neg (by rw [hsame.length]; exact Nat.ne_of_lt hlt), List.length_set, hsame.length,
        hlen]
  · by_cases hxn : x = n
    · subst hxn
      obtain rfl := Option.some.inj (hself.symm.trans hx)
      by_contra hne'
      exact Nat.lt_irrefl _ (hfresh ((hother (Ne.symm hne')).mp hx'))
    · by_cases hxn' : x' = n
      · subst hxn'
        obtain rfl := Option.some.inj (hself.symm.trans hx')
        exact absurd (hfresh ((hother hxn).mp hx)) (Nat.lt_irrefl _)
      · exact hsame.inj x x' y ((hother hxn).mp hx) ((hother hxn').mp hx')
  · by_cases hxn : x = n
    · subst hxn
      obtain rfl := Option.some.inj (hself.symm.trans hx)
      exact ⟨_, _, hnew, hlast, rfl, rfl, Iff.rfl⟩
    · obtain ⟨d, e, hd, he, hlike⟩ := hsame.node x y ((hother hxn).mp hx)
      exact ⟨d, e, (hold x hxn).trans hd, halloc he, hlike⟩
  · by_cases hxn : x = n
    · subst hxn
      obtain rfl := Option.some.inj (hself.symm.trans hx)
      cases hnew.symm.trans hd
      cases hlast.symm.trans he
      exact .none
    · have hx₀ := (hother hxn).mp hx
      obtain ⟨d₀, e₀, hd₀, he₀, -⟩ := hsame.node x y hx₀
      cases ((hold x hxn).trans hd₀).symm.trans hd
      cases (halloc he₀).symm.trans he
      have hrel := hsame.ahead x y k d e hx₀ hat hk hd₀ he₀
      obtain ⟨e', he', hnext⟩ := hs.shape.next k y hat
      rw [← Option.some.inj (he₀.symm.trans he')] at hnext
      generalize d.next = a at hrel
      generalize e.next = b at hrel hnext
      cases hrel with
      | none => exact .none
      | some hzw =>
        have hk' : s.taken.length ≤ k + 1 := Nat.le_succ_of_le hk
        exact .some ((hother (hne hzw hnext.symm hk')).mpr hzw)
  · change Named _ r₁.head _
    rw [hhead]
    exact (hother (hne hsame.head hs.shape.head (Nat.le_refl _))).mpr hsame.head
  · change Named _ r₁.tail _
    rw [htail]
    exact (hother (hne hsame.tail hs.shape.tail hs.shape.order)).mpr hsame.tail
  · change r₁.linked.map Prod.snd = _
    rw [hlinked]
    exact hsame.linked
  · change r₁.taken.map Prod.snd = _
    rw [htaken]
    exact hsame.taken
  · by_cases hut : u = t
    · subst hut
      rw [pc_goto_self, pc_goto_self]
      exact .enqTail hself
    · rw [pc_goto_of_ne _ hut, pc_goto_of_ne _ hut, hpc]
      refine (h.pc u).mono (fun x y hx hxy ↦ (hother ?_).mpr hxy) fun _ ↦ id
      rintro rfl
      have hlt : x < r.heap.length := hsame.length ▸ (List.getElem?_eq_some_iff.mp hxy).1
      exact hspares hlt u hx

end Queue

section Runs

variable [DecidableEq T] {junk : V} {acts : List (RecycleAct T V)} {r : Queue T V}

/-- On a heap that reuses addresses the queue does what it does on one that does not. -/
theorem follows_of_spares (T : Type) [DecidableEq T] {V : Type} (junk : V) :
    Machine.Follows (recyclingQueue T junk) (lockFreeQueue T junk) (fun s a ↦ a.Spares s)
      (fun r s ↦ s.Sound ∧ s.Reclaimed ∧ ∃ names, Queue.Mirrors names r s) RecycleAct.plain where
  init := by
    have hzero {x y : Addr} (hx : Queue.Named [0] x y) : x = 0 ∧ y = 0 := by
      have hx' : [0][x]? = some y := hx
      rw [List.getElem?_singleton] at hx'
      split at hx'
      · next h => exact ⟨h, (Option.some.inj hx').symm⟩
      · cases hx'
    refine ⟨Queue.sound_new junk, Queue.reclaimed_new junk, [0], ⟨rfl, fun x x' y hx hx' ↦ ?_,
      fun x y hx ↦ ?_, fun x y k d e hx _ _ hd he ↦ ?_, rfl, rfl, rfl, rfl, rfl⟩, fun t ↦ .idle⟩
    · exact (hzero hx).1.trans (hzero hx').1.symm
    · obtain ⟨rfl, rfl⟩ := hzero hx
      exact ⟨_, _, rfl, rfl, rfl, rfl, Iff.rfl⟩
    · obtain ⟨rfl, rfl⟩ := hzero hx
      cases hd
      cases he
      exact .none
  step := by
    rintro r s a r' ⟨hs, hr, names, hm⟩ hspares hstep
    have hkept {s' : Queue T V} {names' : List Addr} (hs' : s.step a.plain = some s')
        (hm' : Queue.Mirrors names' r' s') : ∃ t', (lockFreeQueue T junk).step s a.plain = some t' ∧
          t'.Sound ∧ t'.Reclaimed ∧ ∃ names, Queue.Mirrors names r' t' :=
      ⟨s', hs', hs.step hs', hr.step hs hs', names', hm'⟩
    have hidle {t : T} {ret : Option (Ret V)} (hp : r.pc t = .idle ret) : s.pc t = .idle ret := by
      have hlike := hm.pc t
      rw [hp] at hlike
      generalize s.pc t = q at hlike
      cases hlike
      rfl
    cases a with
    | enq t v n =>
      simp only [recyclingQueue, Queue.recycleStep] at hstep
      split at hstep
      · next hp =>
        obtain ⟨r₁, hr₁, rfl⟩ := Option.map_eq_some_iff.mp hstep
        refine hkept ?_ (hm.enq hs hr hr₁ hspares)
        simp only [RecycleAct.plain, Queue.step, hidle hp]
      · cases hstep
    | deq t wait =>
      simp only [recyclingQueue, Queue.recycleStep, Queue.step] at hstep
      split at hstep
      · next hp =>
        cases hstep
        refine hkept ?_ (hm.still .deqHead)
        simp only [RecycleAct.plain, Queue.step, hidle hp]
      · cases hstep
    | go t =>
      obtain ⟨s', hs', hm'⟩ := hm.go hs hstep
      exact hkept hs' hm'

/-- For any number of threads and any interleaving: as long as the allocator does not return the
address of a deleted node that a thread in a call still has, the run is one of the queue on a heap
without reuse. The same values have gone in and out, and the calls have returned the same. -/
theorem refines_of_spares
    (hspares : (recyclingQueue T junk).AllSteps (fun s a ↦ a.Spares s) (.new junk) acts)
    (hrun : (recyclingQueue T junk).run (.new junk) acts = some r) :
    ∃ s, (lockFreeQueue T junk).run (.new junk) (acts.map RecycleAct.plain) = some s ∧
      r.linked.map Prod.snd = s.linked.map Prod.snd ∧
      r.taken.map Prod.snd = s.taken.map Prod.snd ∧ r.sz = s.sz ∧
      ∀ t, (r.pc t).returned = (s.pc t).returned := by
  have hfollows := follows_of_spares T junk
  obtain ⟨s, hs, -, -, names, hm⟩ := hfollows.run hfollows.init hspares hrun
  exact ⟨s, hs, hm.same.linked, hm.same.taken, hm.same.sz, fun t ↦ (hm.pc t).returned⟩

/-- A thread enqueues something, dequeues it, and does so again with the node it has deleted. -/
def again : List (RecycleAct Unit Nat) :=
  .enq () 5 1 :: List.replicate 6 (.go ()) ++ .deq () false :: List.replicate 9 (.go ()) ++
    .enq () 6 0 :: List.replicate 6 (.go ()) ++ .deq () false :: List.replicate 9 (.go ())

theorem refines_of_spares_again : ∃ r s : Queue Unit Nat,
    (lockFreeQueue Unit 0).run (.new 0) (again.map RecycleAct.plain) = some s ∧
      r.linked.map Prod.snd = s.linked.map Prod.snd ∧
      r.taken.map Prod.snd = s.taken.map Prod.snd ∧ r.sz = s.sz ∧
      ∀ t, (r.pc t).returned = (s.pc t).returned :=
  ⟨_, refines_of_spares
    (by decide : (recyclingQueue Unit 0).AllSteps (fun s a ↦ a.Spares s) (.new 0) again) rfl⟩

/-- So values come out in the order in which they went in, and `nowait_deq` returns with nothing
only if the queue was empty at some moment during the call. -/
theorem fifo_of_spares (T : Type) [DecidableEq T] {V : Type} (junk : V)
    (acts : List (RecycleAct T V)) (r : Queue T V)
    (hspares : (recyclingQueue T junk).AllSteps (fun s a ↦ a.Spares s) (.new junk) acts)
    (hrun : (recyclingQueue T junk).run (.new junk) acts = some r) :
    r.taken.map Prod.snd <+: r.linked.map Prod.snd ∧
    ∀ r₁ r₂ r₃ t mid, r.recycleStep (.deq t false) = some r₁ →
      (∀ a ∈ mid, a.plain.thread = t → a = .go t) →
      (recyclingQueue T junk).AllSteps (fun s a ↦ a.Spares s) r₁ mid →
      (recyclingQueue T junk).run r₁ mid = some r₂ → r₂.recycleStep (.go t) = some r₃ →
      r₃.pc t = .idle (some .nothing) →
      ∃ p r', p <+: mid ∧ (recyclingQueue T junk).run r₁ p = some r' ∧ r'.contents = [] := by
  have hfollows := follows_of_spares T junk
  obtain ⟨s, hs, hrel⟩ := hfollows.run hfollows.init hspares hrun
  have hsound := hrel.1
  obtain ⟨names, hm⟩ := hrel.2.2
  constructor
  · rw [hm.same.taken, hm.same.linked]
    exact hsound.shape.taken.map Prod.snd
  · intro r₁ r₂ r₃ t mid hcall hmid hmidspares hmidrun hgo hret
    obtain ⟨s₁, hs₁, hrel₁⟩ := hfollows.step r s (.deq t false) r₁ hrel trivial hcall
    obtain ⟨s₂, hs₂, hrel₂⟩ := hfollows.run hrel₁ hmidspares hmidrun
    obtain ⟨s₃, hs₃, -, -, names₃, hm₃⟩ := hfollows.step r₂ s₂ (.go t) r₃ hrel₂ trivial hgo
    have hret₃ : s₃.pc t = .idle (some .nothing) := by
      apply Pc.returned_eq_some
      rw [← (hm₃.pc t).returned, hret]
      rfl
    have hcall' : s.step (.deq t false) = some s₁ := hs₁
    have hstart : s₁.pc t = .deqHead false := by
      cases Queue.steps_of_step hcall'
      exact Queue.pc_goto_self s t _
    obtain ⟨first, hpc, hhead⟩ := Queue.go_nothing hs₃ hret₃
    have hmid' : ∀ a ∈ mid.map RecycleAct.plain, a.thread = t → a = .go t := by
      intro a ha hat
      obtain ⟨b, hb, rfl⟩ := List.mem_map.mp ha
      rw [hmid b hb hat]
      rfl
    obtain ⟨p, s', hp, hps, hempty⟩ := empty_of_deqTest hrel₁.1 hstart hmid' hs₂ hpc hhead
    obtain ⟨p', r', hp', hpr, -, -, names', hm'⟩ := hfollows.back hrel₁ hmidspares hmidrun hp hps
    refine ⟨p', r', hp', hpr, ?_⟩
    have hlen : r'.taken.length = s'.taken.length := by
      simpa using congrArg List.length hm'.same.taken
    rw [Queue.contents, List.map_drop, hm'.same.linked, hlen, ← List.map_drop]
    exact hempty

theorem fifo_of_spares_again : ∃ r₁ : Queue Unit Nat, ∃ p r',
    p <+: [.go (), .go (), .go (), .go ()] ∧
      (recyclingQueue Unit 0).run r₁ p = some r' ∧ r'.contents = [] :=
  ⟨_, (fifo_of_spares Unit 0 again _ (by decide) rfl).2 _ _ _ () [.go (), .go (), .go (), .go ()]
    rfl (fun a ha _ ↦ by simpa using ha) (by decide) rfl rfl rfl⟩

/-- Thread 0 is about to swing `head` from node 0 to node 1. Before it does so, thread 1 dequeues
what is there, enqueues a value in a node that is at address 0 again, and dequeues it as well. -/
theorem not_fifo_recycled : ¬ ∀ (acts : List (RecycleAct (Fin 2) Nat)) r,
    (recyclingQueue (Fin 2) 0).run (.new 0) acts = some r →
      r.taken.map Prod.snd <+: r.linked.map Prod.snd := by
  intro h
  let enq (v : Nat) (n : Addr) : List (RecycleAct (Fin 2) Nat) :=
    .enq 1 v n :: List.replicate 6 (.go 1)
  let deq : List (RecycleAct (Fin 2) Nat) := .deq 1 false :: List.replicate 9 (.go 1)
  have hlost := h (enq 5 1 ++ enq 6 2 ++ .deq 0 false :: List.replicate 6 (.go 0) ++ deq ++ deq ++
    enq 7 0 ++ deq ++ [.go 0]) _ rfl
  revert hlost
  decide

end Runs

end Filth.LockFree
