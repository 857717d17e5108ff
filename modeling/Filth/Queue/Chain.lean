import Filth.Queue.LockFree
import Mathlib.Data.List.Nodup

/-!
# The chain of nodes of the lock-free queue

The nodes that have ever been linked form a chain, in the order of linking. `head` and `tail` move
along it, `head` never past `tail`, and what a thread has read of the two and of a `next` are
positions in the chain that do not change any more.
-/

namespace Filth.LockFree

open Base

variable {T V : Type}

/-- The node that a thread is going to link, with its value. -/
def Pc.owned : Pc V → Option (V × Addr)
  | enqTail v n | enqNext v n _ | enqTest v n _ _ | enqLink v n _ | enqHelp v n _ _ => some (v, n)
  | _ => none

namespace Queue

/-- The addresses of all nodes that have ever been in the queue, the first one included. -/
def chain (s : Queue T V) : List Addr := 0 :: s.linked.map Prod.fst

/-- The node is at this place of the chain. -/
def At (s : Queue T V) (k : Nat) (x : Addr) : Prop := s.chain[k]? = some x

/-- The pointers are those of the chain. -/
structure Shape (s : Queue T V) : Prop where
  nodup : s.chain.Nodup
  next : ∀ k x, s.At k x → ∃ d, s.heap[x]? = some d ∧ d.next = s.chain[k + 1]?
  value : ∀ x v, (x, v) ∈ s.linked → ∃ d, s.heap[x]? = some d ∧ d.t = v
  head : s.At s.taken.length s.head
  tail : s.At s.swung s.tail
  order : s.taken.length ≤ s.swung
  taken : s.taken <+: s.linked

/-- A node that is not linked yet belongs to one thread. -/
structure Owning (s : Queue T V) : Prop where
  fresh : ∀ t v n, (s.pc t).owned = some (v, n) →
    n ∉ s.chain ∧ s.heap[n]? = some { t := v, next := none, freed := false }
  apart : ∀ t u v w n, (s.pc t).owned = some (v, n) → (s.pc u).owned = some (w, n) → t = u

/-- What a thread knows of the nodes it has read. -/
def Knows (s : Queue T V) : Pc V → Prop
  | .enqNext _ _ x | .enqLink _ _ x | .deqDown _ x _ | .deqFree _ x _ => ∃ k, s.At k x
  | .enqTest _ _ last next => ∃ k, s.At k last ∧ ∀ x, next = some x → s.At (k + 1) x
  | .enqSwing next last | .enqHelp _ _ last next | .deqHelp _ last next =>
    ∃ k, s.At k last ∧ s.At (k + 1) next
  | .deqTail _ first => ∃ i, s.At i first ∧ i ≤ s.taken.length
  | .deqAgain _ first last =>
    ∃ i k, s.At i first ∧ s.At k last ∧ i ≤ s.taken.length ∧ i ≤ k ∧ k ≤ s.swung
  | .deqNext _ first last again =>
    ∃ i j k, s.At i first ∧ s.At j again ∧ s.At k last ∧ i ≤ j ∧ j ≤ s.taken.length ∧ i ≤ k ∧
      k ≤ s.swung
  | .deqTest _ first last next =>
    ∃ i j k, s.At i first ∧ s.At k last ∧ i ≤ j ∧ j ≤ s.taken.length ∧ i ≤ k ∧ k ≤ s.swung ∧
      (∀ x, next = some x → s.At (j + 1) x) ∧ (next = none → i = j → i = k)
  | .deqRead _ first next =>
    ∃ i x, next = some x ∧ s.At i first ∧ s.At (i + 1) x ∧ i + 1 ≤ s.swung
  | .deqSwing _ first next v =>
    ∃ i, s.At i first ∧ s.linked[i]? = some (next, v) ∧ i + 1 ≤ s.swung
  | _ => True

/-- All of this holds at any time. -/
structure Sound (s : Queue T V) : Prop where
  shape : s.Shape
  owning : s.Owning
  knows : ∀ t, s.Knows (s.pc t)

variable {s s' : Queue T V} {t : T} {i j k n : Nat} {x y : Addr} {v : V} {pc : Pc V}

/-! ### Places -/

/-- A node is at one place. -/
theorem Shape.place_unique (h : s.Shape) (hi : s.At i x) (hj : s.At j x) : i = j := by
  obtain ⟨hlt, -⟩ := List.getElem?_eq_some_iff.mp hi
  exact (List.getElem?_inj hlt h.nodup).mp (hi.trans hj.symm)

theorem At.mem (h : s.At k x) : x ∈ s.chain := List.mem_of_getElem? h

/-- What is there in a list stays where it is when something is appended. -/
theorem getElem?_of_prefix {α : Type} {l l' : List α} {x : α} (hp : l <+: l')
    (h : l[k]? = some x) : l'[k]? = some x := by
  obtain ⟨hlt, rfl⟩ := List.getElem?_eq_some_iff.mp h
  exact List.prefix_iff_getElem?.mp hp k hlt

/-- The chain only grows. -/
theorem At.of_prefix (h : s.At k x) (hp : s.linked <+: s'.linked) : s'.At k x :=
  getElem?_of_prefix (List.cons_prefix_cons.mpr ⟨rfl, hp.map _⟩) h

/-- The places after the first one are those of the log. -/
theorem at_succ_iff : s.At (k + 1) x ↔ ∃ v, s.linked[k]? = some (x, v) := by
  simp [At, chain]

/-- The state has moved on. -/
structure Later (s s' : Queue T V) : Prop where
  linked : s.linked <+: s'.linked
  taken : s.taken.length ≤ s'.taken.length
  swung : s.swung ≤ s'.swung

/-- What a thread knows, it knows for ever. -/
theorem Knows.later (h : s.Knows pc) (hl : s.Later s') : s'.Knows pc := by
  have hat {k x} (hk : s.At k x) : s'.At k x := hk.of_prefix hl.linked
  have htaken := hl.taken
  have hswung := hl.swung
  cases pc with
  | enqNext | enqLink | deqDown | deqFree =>
    obtain ⟨k, hk⟩ := h
    exact ⟨k, hat hk⟩
  | enqTest =>
    obtain ⟨k, hk, hnext⟩ := h
    exact ⟨k, hat hk, fun x hx ↦ hat (hnext x hx)⟩
  | enqSwing | enqHelp | deqHelp =>
    obtain ⟨k, hk, hnext⟩ := h
    exact ⟨k, hat hk, hat hnext⟩
  | deqTail =>
    obtain ⟨i, hi, hle⟩ := h
    exact ⟨i, hat hi, by omega⟩
  | deqAgain =>
    obtain ⟨i, k, hi, hk, hit, hik, hks⟩ := h
    exact ⟨i, k, hat hi, hat hk, by omega, hik, by omega⟩
  | deqNext =>
    obtain ⟨i, j, k, hi, hj, hk, hij, hjt, hik, hks⟩ := h
    exact ⟨i, j, k, hat hi, hat hj, hat hk, hij, by omega, hik, by omega⟩
  | deqTest =>
    obtain ⟨i, j, k, hi, hk, hij, hjt, hik, hks, hsome, hnone⟩ := h
    exact ⟨i, j, k, hat hi, hat hk, hij, by omega, hik, by omega, fun x hx ↦ hat (hsome x hx),
      hnone⟩
  | deqRead =>
    obtain ⟨i, x, hx, hi, hnext, hle⟩ := h
    exact ⟨i, x, hx, hat hi, hat hnext, by omega⟩
  | deqSwing =>
    obtain ⟨i, hi, hnext, hle⟩ := h
    exact ⟨i, hat hi, getElem?_of_prefix hl.linked hnext, by omega⟩
  | _ => trivial

/-! ### Changes of the queue alone -/

/-- The semaphore has no part in this. -/
theorem Sound.setSz (h : s.Sound) (n : Nat) : (s.setSz n).Sound :=
  ⟨⟨h.shape.nodup, h.shape.next, h.shape.value, h.shape.head, h.shape.tail, h.shape.order,
    h.shape.taken⟩, ⟨h.owning.fresh, h.owning.apart⟩,
    fun t ↦ (h.knows t).later ⟨List.prefix_rfl, Nat.le_refl _, Nat.le_refl _⟩⟩

/-- Nor has deletion, which leaves a node as it is. -/
theorem Sound.free (h : s.Sound) (x : Addr)
    (hx : ∀ t v, (s.pc t).owned ≠ some (v, x)) : (s.free x).Sound := by
  refine ⟨⟨h.shape.nodup, fun k y hy ↦ ?_, fun y v hy ↦ ?_, h.shape.head, h.shape.tail,
    h.shape.order, h.shape.taken⟩, ⟨fun t v n hn ↦ ?_, h.owning.apart⟩,
    fun t ↦ (h.knows t).later ⟨List.prefix_rfl, Nat.le_refl _, Nat.le_refl _⟩⟩
  · obtain ⟨d, hd, hnext⟩ := h.shape.next k y hy
    dsimp only [Queue.free]
    rw [List.getElem?_modify, hd]
    exact ⟨_, rfl, by split <;> exact hnext⟩
  · obtain ⟨d, hd, hv⟩ := h.shape.value y v hy
    dsimp only [Queue.free]
    rw [List.getElem?_modify, hd]
    exact ⟨_, rfl, by split <;> exact hv⟩
  · obtain ⟨hchain, hd⟩ := h.owning.fresh t v n hn
    have hne : x ≠ n := by
      rintro rfl
      exact hx t v hn
    refine ⟨hchain, ?_⟩
    dsimp only [Queue.free]
    rw [List.getElem?_modify, hd]
    simp [hne]

/-- A new node is at an address of its own. -/
theorem Sound.alloc (h : s.Sound) (v : V) : (s.alloc v).Sound := by
  have hold {x : Addr} {e : Node V} (he : s.heap[x]? = some e) : (s.alloc v).heap[x]? = some e :=
    getElem?_of_prefix (List.prefix_append _ _) he
  refine ⟨⟨h.shape.nodup, fun k y hy ↦ ?_, fun y v hy ↦ ?_, h.shape.head, h.shape.tail,
    h.shape.order, h.shape.taken⟩, ⟨fun t v n hn ↦ ?_, h.owning.apart⟩,
    fun t ↦ (h.knows t).later ⟨List.prefix_rfl, Nat.le_refl _, Nat.le_refl _⟩⟩
  · obtain ⟨e, he, hnext⟩ := h.shape.next k y hy
    exact ⟨e, hold he, hnext⟩
  · obtain ⟨e, he, hv⟩ := h.shape.value y v hy
    exact ⟨e, hold he, hv⟩
  · obtain ⟨hchain, he⟩ := h.owning.fresh t v n hn
    exact ⟨hchain, hold he⟩

/-- `tail` is swung to the next node, or not at all. -/
theorem Sound.casTail (h : s.Sound) (hk : s.At k x) (hnext : s.At (k + 1) y) :
    (s.casTail x y).Sound := by
  unfold Queue.casTail
  split
  · next htail =>
    have hplace : s.swung = k := h.shape.place_unique h.shape.tail (htail ▸ hk)
    have horder := h.shape.order
    have hlater : s.Later { s with tail := y, swung := s.swung + 1 } :=
      ⟨List.prefix_rfl, Nat.le_refl _, Nat.le_succ _⟩
    refine ⟨⟨h.shape.nodup, h.shape.next, h.shape.value, h.shape.head, ?_, ?_, h.shape.taken⟩,
      ⟨h.owning.fresh, h.owning.apart⟩, fun t ↦ (h.knows t).later hlater⟩
    · rw [← hplace] at hnext
      exact hnext
    · dsimp only
      omega
  · exact h

/-- `head` is swung to the next node. -/
theorem Sound.swing (h : s.Sound) (hi : s.At i s.head) (hnext : s.linked[i]? = some (y, v))
    (hle : i + 1 ≤ s.swung) : (s.swing y v).Sound := by
  have hplace : i = s.taken.length := h.shape.place_unique hi h.shape.head
  subst hplace
  have hlen : (s.taken ++ [(y, v)]).length = s.taken.length + 1 := by simp
  have hlater : s.Later (s.swing y v) :=
    ⟨List.prefix_rfl, by dsimp only [Queue.swing]; omega, Nat.le_refl _⟩
  refine ⟨⟨h.shape.nodup, h.shape.next, h.shape.value, ?_, h.shape.tail, ?_, ?_⟩,
    ⟨h.owning.fresh, h.owning.apart⟩, fun t ↦ (h.knows t).later hlater⟩
  · dsimp only [Queue.swing]
    rw [hlen]
    exact at_succ_iff.mpr ⟨v, hnext⟩
  · dsimp only [Queue.swing]
    omega
  · have htake : s.taken ++ [(y, v)] = s.linked.take (s.taken.length + 1) := by
      rw [List.take_add_one, hnext, ← List.prefix_iff_eq_take.mp h.shape.taken]
      rfl
    dsimp only [Queue.swing]
    rw [htake]
    exact List.take_prefix _ _

private theorem chain_link (s : Queue T V) (x n : Addr) (v : V) :
    (s.link x n v).chain = s.chain ++ [n] := by simp [Queue.link, chain]

theorem later_link (s : Queue T V) (x n : Addr) (v : V) : s.Later (s.link x n v) :=
  ⟨List.prefix_append _ _, Nat.le_refl _, Nat.le_refl _⟩

/-- Only the node that gets another one behind it is changed. -/
theorem heap_link_of_ne (s : Queue T V) (n : Addr) (v : V) (hxy : x ≠ y) :
    (s.link x n v).heap[y]? = s.heap[y]? := by simp [Queue.link, hxy]

theorem heap_link_self {d : Node V} (hd : s.heap[x]? = some d) (n : Addr) (v : V) :
    (s.link x n v).heap[x]? = some { d with next := some n } := by simp [Queue.link, hd]

/-- A node without a next one is at the last place. -/
theorem Shape.length_chain (h : s.Shape) (hk : s.At k x) {d : Node V}
    (hx : s.heap[x]? = some d) (hlast : d.next = none) : s.chain.length = k + 1 := by
  obtain ⟨e, he, hnext⟩ := h.next k x hk
  cases hx.symm.trans he
  rw [hlast] at hnext
  have hle := List.getElem?_eq_none_iff.mp hnext.symm
  obtain ⟨hlt, -⟩ := List.getElem?_eq_some_iff.mp hk
  omega

/-- The place behind it is that of the new node. -/
theorem at_link (hlen : s.chain.length = k + 1) (x n : Addr) (v : V) :
    (s.link x n v).At (k + 1) n := by
  rw [At, chain_link, ← hlen]
  exact List.getElem?_concat_length

/-- The other places are as they were. -/
theorem at_of_link (h : (s.link x n v).At k y) : s.At k y ∨ k = s.chain.length ∧ y = n := by
  rw [At, chain_link, List.getElem?_append] at h
  split at h
  · exact .inl h
  · rw [List.getElem?_singleton] at h
    split at h
    · cases h
      exact .inr ⟨by omega, rfl⟩
    · cases h

private theorem Shape.next_link (h : s.Shape) (hk : s.At k x) (hlen : s.chain.length = k + 1)
    (hxn : x ≠ n) {e : Node V} (he : s.heap[n]? = some e) (hnone : e.next = none)
    (hy : (s.link x n v).At j y) :
    ∃ d, (s.link x n v).heap[y]? = some d ∧ d.next = (s.link x n v).chain[j + 1]? := by
  rcases at_of_link hy with hold | ⟨rfl, rfl⟩
  · obtain ⟨d, hd, hnext⟩ := h.next j y hold
    by_cases hxy : x = y
    · subst hxy
      have hjk : j = k := h.place_unique hold hk
      subst hjk
      exact ⟨_, heap_link_self hd n v, (at_link hlen x n v).symm⟩
    · refine ⟨d, (heap_link_of_ne s n v hxy).trans hd, ?_⟩
      have hjk : j ≠ k := by
        rintro rfl
        exact hxy (Option.some.inj (hk.symm.trans hold))
      obtain ⟨hlt, -⟩ := List.getElem?_eq_some_iff.mp hold
      rw [hnext, chain_link, List.getElem?_append_left (by omega)]
  · refine ⟨e, (heap_link_of_ne s y v hxn).trans he, ?_⟩
    rw [hnone, chain_link]
    have hend : (s.chain ++ [y])[s.chain.length + 1]? = none := by simp
    exact hend.symm

/-- A node that belongs to nobody is linked behind the last one. -/
theorem Sound.link (h : s.Sound) (hk : s.At k x) {d : Node V} (hx : s.heap[x]? = some d)
    (hlast : d.next = none) (hn : n ∉ s.chain)
    (hfresh : s.heap[n]? = some { t := v, next := none, freed := false })
    (hfree : ∀ t w, (s.pc t).owned ≠ some (w, n)) : (s.link x n v).Sound := by
  have hlater := later_link s x n v
  have hlen := h.shape.length_chain hk hx hlast
  have hxn : x ≠ n := by
    rintro rfl
    exact hn hk.mem
  refine ⟨⟨?_, fun j y ↦ h.shape.next_link hk hlen hxn hfresh rfl, fun y w hy ↦ ?_,
    h.shape.head.of_prefix hlater.linked, h.shape.tail.of_prefix hlater.linked, h.shape.order,
    h.shape.taken.trans hlater.linked⟩, ⟨fun t w m hm ↦ ?_, h.owning.apart⟩,
    fun t ↦ (h.knows t).later hlater⟩
  · rw [chain_link]
    exact h.shape.nodup.append (List.nodup_singleton n) (by simpa using hn)
  · rcases List.mem_append.mp hy with hold | hnew
    · obtain ⟨e, he, hw⟩ := h.shape.value y w hold
      by_cases hxy : x = y
      · subst hxy
        exact ⟨_, heap_link_self he n v, hw⟩
      · exact ⟨e, (heap_link_of_ne s n v hxy).trans he, hw⟩
    · cases List.mem_singleton.mp hnew
      exact ⟨_, (heap_link_of_ne s n v hxn).trans hfresh, rfl⟩
  · obtain ⟨hmem, hnode⟩ := h.owning.fresh t w m hm
    have hmn : m ≠ n := by
      rintro rfl
      exact hfree t w hm
    have hxm : x ≠ m := by
      rintro rfl
      exact hmem hk.mem
    rw [chain_link, List.mem_append, List.mem_singleton, not_or]
    exact ⟨⟨hmem, hmn⟩, (heap_link_of_ne s n v hxm).trans hnode⟩

/-- A thread has read the next node of one that it has found in the queue. -/
theorem Sound.next_eq (h : s.Sound) (hk : s.At k x) {d : Node V} (hx : s.heap[x]? = some d)
    (hnext : d.next = some y) : s.At (k + 1) y := by
  obtain ⟨e, he, hplace⟩ := h.shape.next k x hk
  cases hx.symm.trans he
  exact hplace.symm.trans hnext

/-- What a thread knows after its test of `head`: nothing has moved since it read it. -/
theorem Sound.deqTest (h : s.Sound) {wait : Bool} {first last : Addr} {next : Option Addr}
    (hk : s.Knows (.deqTest wait first last next)) (hhead : s.head = first) :
    ∃ i k, s.At i first ∧ s.At k last ∧ i = s.taken.length ∧ i ≤ k ∧ k ≤ s.swung ∧
      (∀ x, next = some x → s.At (i + 1) x) ∧ (next = none → i = k) := by
  obtain ⟨i, j, k, hi, hk, hij, hjt, hik, hks, hsome, hnone⟩ := hk
  have hit : i = s.taken.length := h.shape.place_unique (hhead ▸ hi) h.shape.head
  have hji : i = j := by omega
  subst hji
  exact ⟨i, k, hi, hk, hit, hik, hks, hsome, fun hnext ↦ hnone hnext rfl⟩

/-- At the start there is one node. -/
theorem sound_new (junk : V) : (new junk : Queue T V).Sound := by
  refine ⟨⟨by simp [chain, new], fun k x hk ↦ ?_, nofun, rfl, rfl, Nat.le_refl _,
    List.prefix_rfl⟩, ⟨nofun, nofun⟩, fun t ↦ trivial⟩
  have hx : k = 0 ∧ x = 0 := by
    have hk' : [0][k]? = some x := hk
    rw [List.getElem?_singleton] at hk'
    split at hk'
    · next hzero => exact ⟨hzero, (Option.some.inj hk').symm⟩
    · cases hk'
  obtain ⟨rfl, rfl⟩ := hx
  exact ⟨_, rfl, rfl⟩

variable [DecidableEq T]

/-- A thread goes on, with a node that belongs to nobody else. -/
theorem Sound.own (h : s.Sound)
    (hown : ∀ v n, pc.owned = some (v, n) → n ∉ s.chain ∧
      s.heap[n]? = some { t := v, next := none, freed := false } ∧
      ∀ u w, (s.pc u).owned = some (w, n) → u = t)
    (hk : s.Knows pc) : (s.goto t pc).Sound := by
  have hlater : s.Later (s.goto t pc) := ⟨List.prefix_rfl, Nat.le_refl _, Nat.le_refl _⟩
  have hcases {u : T} {w : V} {m : Addr} (hu : ((s.goto t pc).pc u).owned = some (w, m)) :
      u = t ∧ pc.owned = some (w, m) ∨ u ≠ t ∧ (s.pc u).owned = some (w, m) := by
    by_cases hut : u = t
    · subst hut
      rw [pc_goto_self] at hu
      exact .inl ⟨rfl, hu⟩
    · rw [pc_goto_of_ne s hut] at hu
      exact .inr ⟨hut, hu⟩
  refine ⟨⟨h.shape.nodup, h.shape.next, h.shape.value, h.shape.head, h.shape.tail, h.shape.order,
    h.shape.taken⟩, ⟨fun u w m hu ↦ ?_, fun u u' w w' m hu hu' ↦ ?_⟩, fun u ↦ ?_⟩
  · rcases hcases hu with ⟨-, hnew⟩ | ⟨-, hold⟩
    · obtain ⟨hn, hheap, -⟩ := hown w m hnew
      exact ⟨hn, hheap⟩
    · exact h.owning.fresh u w m hold
  · rcases hcases hu with ⟨rfl, hnew⟩ | ⟨hut, hold⟩
    · rcases hcases hu' with ⟨rfl, -⟩ | ⟨-, hold'⟩
      · rfl
      · exact ((hown w m hnew).2.2 u' w' hold').symm
    · rcases hcases hu' with ⟨rfl, hnew'⟩ | ⟨-, hold'⟩
      · exact (hown w' m hnew').2.2 u w hold
      · exact h.owning.apart u u' w w' m hold hold'
  · by_cases hut : u = t
    · subst hut
      rw [pc_goto_self]
      exact hk.later hlater
    · rw [pc_goto_of_ne s hut]
      exact (h.knows u).later hlater

/-- A thread goes on, with no node that it has not had. -/
theorem Sound.goto (h : s.Sound) (hown : pc.owned = none ∨ pc.owned = (s.pc t).owned)
    (hk : s.Knows pc) : (s.goto t pc).Sound := by
  refine h.own (fun v n hn ↦ ?_) hk
  rcases hown with hnone | hsame
  · cases hnone.symm.trans hn
  · have hold := hsame.symm.trans hn
    obtain ⟨hchain, hheap⟩ := h.owning.fresh t v n hold
    exact ⟨hchain, hheap, fun u w hu ↦ h.owning.apart u t w v n hu hold⟩

/-! ### Steps -/

/-- A new node belongs to the call that has allocated it. -/
theorem Sound.enq (h : s.Sound) (t : T) (v : V) :
    ((s.alloc v).goto t (.enqTail v s.heap.length)).Sound := by
  have hlt {x : Addr} {d : Node V} (hx : s.heap[x]? = some d) : x < s.heap.length :=
    (List.getElem?_eq_some_iff.mp hx).1
  refine (h.alloc v).own (fun w n hn ↦ ?_) trivial
  cases hn
  refine ⟨fun hmem ↦ ?_, List.getElem?_concat_length, fun u w' hu ↦ ?_⟩
  · obtain ⟨k, hk⟩ := List.getElem?_of_mem hmem
    obtain ⟨d, hd, -⟩ := h.shape.next k s.heap.length hk
    exact absurd (hlt hd) (Nat.lt_irrefl _)
  · exact absurd (hlt (h.owning.fresh u w' s.heap.length hu).2) (Nat.lt_irrefl _)

/-- A thread that has found the last node links its own behind it. -/
private theorem Sound.goLink (h : s.Sound) (hpc : s.pc t = .enqLink v n x) {d : Node V}
    (hx : s.heap[x]? = some d) (hlast : d.next = none) :
    ((s.link x n v).goto t (.enqSwing n x)).Sound := by
  have hknows := h.knows t
  rw [hpc] at hknows
  obtain ⟨k, hk⟩ := hknows
  have hown : (s.pc t).owned = some (v, n) := by rw [hpc]; rfl
  obtain ⟨hn, hfresh⟩ := h.owning.fresh t v n hown
  -- it lets go of the node before the node is linked
  have hfree : ∀ u w, ((s.goto t (.idle none)).pc u).owned ≠ some (w, n) := by
    intro u w hu
    by_cases hut : u = t
    · subst hut
      rw [pc_goto_self] at hu
      cases hu
    · rw [pc_goto_of_ne s hut] at hu
      exact hut (h.owning.apart u t w v n hu hown)
  have hidle : (s.goto t (.idle none)).Sound := h.goto (.inl rfl) trivial
  have hlink : ((s.goto t (.idle none)).link x n v).Sound := hidle.link hk hx hlast hn hfresh hfree
  have hlen := h.shape.length_chain hk hx hlast
  have hknows : ((s.goto t (.idle none)).link x n v).Knows (.enqSwing n x) :=
    ⟨k, hk.of_prefix (List.prefix_append _ _), at_link hlen x n v⟩
  have hgo : (((s.goto t (.idle none)).link x n v).goto t (.enqSwing n x)).Sound :=
    hlink.goto (.inl rfl) hknows
  simpa [Queue.goto, Queue.link] using hgo

/-- Every step keeps all of it. -/
theorem Sound.go (h : s.Sound) (hgo : s.go t = some s') : s'.Sound := by
  have hknows := h.knows t
  cases go_moves hgo with
  -- reading `tail` and `last->next`, and the test of `tail`
  | enqTail hp => exact h.goto (.inr (by rw [hp]; rfl)) ⟨_, h.shape.tail⟩
  | enqNext hp hd =>
    rw [hp] at hknows
    obtain ⟨k, hk⟩ := hknows
    exact h.goto (.inr (by rw [hp]; rfl)) ⟨k, hk, fun x hx ↦ h.next_eq hk hd hx⟩
  | enqLast hp =>
    rw [hp] at hknows
    obtain ⟨k, hk, -⟩ := hknows
    exact h.goto (.inr (by rw [hp]; rfl)) ⟨k, hk⟩
  | enqLags hp =>
    rw [hp] at hknows
    obtain ⟨k, hk, hnext⟩ := hknows
    exact h.goto (.inr (by rw [hp]; rfl)) ⟨k, hk, hnext _ rfl⟩
  | enqMoved hp => exact h.goto (.inr (by rw [hp]; rfl)) trivial
  -- linking, and what comes after it
  | link hp hd hlast => exact h.goLink hp hd hlast
  | linkLost hp => exact h.goto (.inr (by rw [hp]; rfl)) trivial
  | enqSwing hp =>
    rw [hp] at hknows
    obtain ⟨k, hk, hnext⟩ := hknows
    exact (h.casTail hk hnext).goto (.inl rfl) trivial
  | enqUp => exact (h.setSz _).goto (.inl rfl) trivial
  | enqHelp hp =>
    rw [hp] at hknows
    obtain ⟨k, hk, hnext⟩ := hknows
    apply (h.casTail hk hnext).goto
    · right
      rw [pc_casTail, hp]
      rfl
    · trivial
  -- reading `head`, `tail`, `head` again and its next node, and the test of `head`
  | deqHead => exact h.goto (.inl rfl) ⟨_, h.shape.head, Nat.le_refl _⟩
  | deqTail hp =>
    rw [hp] at hknows
    obtain ⟨i, hi, hle⟩ := hknows
    exact h.goto (.inl rfl)
      ⟨i, s.swung, hi, h.shape.tail, hle, Nat.le_trans hle h.shape.order, Nat.le_refl _⟩
  | deqAgain hp =>
    rw [hp] at hknows
    obtain ⟨i, k, hi, hk, hit, hik, hks⟩ := hknows
    exact h.goto (.inl rfl)
      ⟨i, s.taken.length, k, hi, h.shape.head, hk, hit, Nat.le_refl _, hik, hks⟩
  | deqNext hp hd =>
    rw [hp] at hknows
    obtain ⟨i, j, k, hi, hj, hk, hij, hjt, hik, hks⟩ := hknows
    refine h.goto (.inl rfl)
      ⟨i, j, k, hi, hk, hij, hjt, hik, hks, fun x hx ↦ h.next_eq hj hd hx, fun hnone hsame ↦ ?_⟩
    have hlen := h.shape.length_chain hj hd hnone
    obtain ⟨hlt, -⟩ := List.getElem?_eq_some_iff.mp hk
    omega
  | nothing => exact h.goto (.inl rfl) trivial
  | sleep => exact h.goto (.inl rfl) trivial
  | deqLags hp hhead =>
    rw [hp] at hknows
    obtain ⟨i, k, hi, -, -, -, -, hsome, -⟩ := h.deqTest hknows hhead
    exact h.goto (.inl rfl) ⟨i, hi, hsome _ rfl⟩
  | @deqFound wait first last next hp hhead hne =>
    rw [hp] at hknows
    obtain ⟨i, k, hi, hk, hit, hik, hks, hsome, hnone⟩ := h.deqTest hknows hhead
    have hlt : i < k := by
      rcases Nat.lt_or_eq_of_le hik with hlt | rfl
      · exact hlt
      · exact absurd (Option.some.inj (hi.symm.trans hk)) hne
    cases next with
    | none =>
      have hik := hnone rfl
      omega
    | some next => exact h.goto (.inl rfl) ⟨i, next, rfl, hi, hsome next rfl, by omega⟩
  | deqMoved => exact h.goto (.inl rfl) trivial
  | deqHelp hp =>
    rw [hp] at hknows
    obtain ⟨k, hk, hnext⟩ := hknows
    exact (h.casTail hk hnext).goto (.inl rfl) trivial
  -- taking a value out
  | @deqRead wait first next d hp hd =>
    rw [hp] at hknows
    obtain ⟨i, y, hy, hi, hnext, hle⟩ := hknows
    cases hy
    obtain ⟨v, hv⟩ := at_succ_iff.mp hnext
    obtain ⟨e, he, rfl⟩ := h.shape.value next v (List.mem_of_getElem? hv)
    cases hd.symm.trans he
    exact h.goto (.inl rfl) ⟨i, hi, hv, hle⟩
  | swing hp hhead =>
    rw [hp] at hknows
    obtain ⟨i, hi, hnext, hle⟩ := hknows
    subst hhead
    exact (h.swing hi hnext hle).goto (.inl rfl) ⟨i, hi⟩
  | swingLost => exact h.goto (.inl rfl) trivial
  | deqDown hp =>
    rw [hp] at hknows
    exact (h.setSz _).goto (.inl rfl) hknows
  | @deqFree wait first v hp =>
    rw [hp] at hknows
    obtain ⟨k, hk⟩ := hknows
    refine (h.free first fun u w hu ↦ ?_).goto (.inl rfl) trivial
    exact (h.owning.fresh u w first hu).1 hk.mem
  | waitDown => exact (h.setSz _).goto (.inl rfl) trivial
  | waitUp => exact (h.setSz _).goto (.inl rfl) trivial

theorem Sound.step {a : QueueAct T V} (h : s.Sound) (hstep : s.step a = some s') : s'.Sound := by
  cases steps_of_step hstep with
  | enq => exact h.enq _ _
  | deq => exact h.goto (.inl rfl) trivial
  | go hgo => exact h.go hgo

end Queue

end Filth.LockFree
