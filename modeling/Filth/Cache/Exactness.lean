import Filth.Cache.Counting

/-!
# Who is counted, and what `unget` acts on

`src/Cache.hpp:84–219`, without `flush`. The count is an `int`, so it tells how many hold an entry
as long as they are not too many. What is passed to `unget` is a handle. The count that it takes
back is one of the entry that was handed out, because that is still there; but what it does after
its read section, evict an entry that has been marked or queue the handle, it does to whatever is
under the handle by then.
-/

namespace Filth.Cache

open Base

variable {T H S : Type} [DecidableEq H]

/-- Nobody flushes. -/
def NoFlush (_ : State T H S) : Act T H S → Prop
  | .flush _ => False
  | _ => True

instance (s : State T H S) : DecidablePred (NoFlush s)
  | .flush _ => .isFalse id
  | .get .. | .unget .. | .put .. | .adviseEvict .. | .pop .. | .alloc .. | .go _ => .isTrue trivial

/-- Every cached entry is counted as often as there are holders of that very entry, and what a
holder has obtained is under its handle. -/
structure CountsHolders (s : State T H S) : Prop where
  count : ∀ h e, s.shared.find h = some e → e.refcnt = refsTo s.holds h e.id
  nonneg : ∀ h e, s.shared.find h = some e → 0 ≤ e.refcnt
  found : ∀ r ∈ s.holds, ∃ e, s.shared.find r.handle = some e ∧ e.id = r.id

/-- The thread has taken a count back in an `unget`, and has yet to see to the handle. -/
def Pc.Ungets (p : Pc H S) (h : H) : Prop := p = .ungetRead h ∨ p = .ungetEvict h ∨ p = .enq h

/-- `unget` takes a count back from the entry that its holder has obtained, and touches no other;
afterwards it removes at most an entry without references, and only under its handle. -/
def UngetsExactly [DecidableEq T] [Fintype T] (s : State T H S) (a : Act T H S) : Prop :=
  ∀ s', s.step a = some s' →
    match a with
    | .unget _ h id => ∃ e, s.shared.find h = some e ∧ e.id = id ∧ 0 < e.refcnt ∧
        ∀ k, s'.shared.find k =
          if k = h then some { e with refcnt := e.refcnt - 1 } else s.shared.find k
    | .go t => ∀ h, (s.pc t).Ungets h → ∀ k, s'.shared.find k = s.shared.find k ∨
        k = h ∧ s'.shared.find k = none ∧
          ∀ e, s.shared.find k = some e → refsTo s.holds k e.id = 0
    | _ => True

/-- Whoever holds something under a handle holds the entry there. -/
theorem Exact.refsTo_eq {c : Cache H S} {hs : List (Hold T H)} (hE : Exact c hs) {h : H}
    {e : Stuff S} (he : c.find h = some e) : refsTo hs h e.id = holders hs h := by
  refine List.countP_congr fun r hr ↦ ?_
  simp only [decide_eq_true_eq, and_iff_left_iff_imp]
  rintro rfl
  obtain ⟨d, hd, hid⟩ := hE.found r hr
  cases he.symm.trans hd
  exact hid.symm

/-- Counts are exact, and there are at most so many holders. -/
structure ExactUpTo (n : Nat) (c : Cache H S) (hs : List (Hold T H)) : Prop where
  exact : Exact c hs
  few : ∀ h, holders hs h ≤ n

private theorem exactUpTo_new (n max : Nat) :
    ExactUpTo n (Cache.new max : Cache H S) ([] : List (Hold T H)) :=
  ⟨exact_new max, fun _ ↦ Nat.zero_le n⟩

/-- As long as the holders are less than `2 ^ 32`, an entry with a count of zero has none. -/
private theorem ExactUpTo.holders_eq_zero {n : Nat} {c : Cache H S} {hs : List (Hold T H)}
    (hE : ExactUpTo n c hs) (hn : n < 2 ^ 32) {h : H} (hdvd : 2 ^ 32 ∣ holders hs h) :
    holders hs h = 0 :=
  Nat.eq_zero_of_dvd_of_lt hdvd (Nat.lt_of_le_of_lt (hE.few h) hn)

/-- As long as the holders fit into an `int`, it tells how many there are. -/
theorem ExactUpTo.refcnt_eq {c : Cache H S} {hs : List (Hold T H)}
    (hE : ExactUpTo (2 ^ 31 - 1) c hs) {h : H} {e : Stuff S} (he : c.find h = some e) :
    e.refcnt = holders hs h := by
  have hfew := hE.few h
  rw [hE.exact.count h e he]
  exact signed_of_range (by decide) (by omega) (by omega)

private theorem ExactUpTo.countsHolders {s : State T H S}
    (hE : ExactUpTo (2 ^ 31 - 1) s.shared s.holds) : CountsHolders s := by
  refine ⟨fun h e he ↦ ?_, fun h e he ↦ ?_, hE.exact.found⟩
  · rw [hE.exact.refsTo_eq he]
    exact hE.refcnt_eq he
  · rw [hE.refcnt_eq he]
    exact Int.natCast_nonneg _

/-- Where counts are exact, an eviction removes at most an entry without references. -/
private theorem ExactUpTo.find_evictHandle {c : Cache H S} {hs : List (Hold T H)}
    (hE : ExactUpTo (2 ^ 31 - 1) c hs) (h k : H) :
    (c.evictHandle h).2.find k = c.find k ∨ k = h ∧ (c.evictHandle h).2.find k = none ∧
      ∀ e, c.find k = some e → refsTo hs k e.id = 0 := by
  rcases c.evictHandle_cases h with ⟨hsame, -⟩ | ⟨d, hd, hzero, hgone⟩
  · rw [hsame]
    exact .inl rfl
  · rw [hgone]
    by_cases hk : k = h
    · subst hk
      refine .inr ⟨rfl, AList.lookup_erase k _, fun e he ↦ ?_⟩
      cases hd.symm.trans he
      have hcount := hE.refcnt_eq he
      rw [hE.exact.refsTo_eq he]
      omega
    · exact .inl (AList.lookup_erase_ne hk)

variable [DecidableEq T] [Fintype T]

/-- Where counts are exact, `unget` does no more than it should. -/
private theorem ExactUpTo.ungetsExactly {s : State T H S}
    (hE : ExactUpTo (2 ^ 31 - 1) s.shared s.holds) (a : Act T H S) : UngetsExactly s a := by
  intro s' h
  cases State.step_moves h with
  | @unget t k id hp hm =>
    obtain ⟨e, he, hid⟩ := hE.exact.found _ hm
    change s.shared.find k = some e at he
    have hpos : 0 < holders s.holds k := List.countP_pos_iff.mpr ⟨_, hm, by simp⟩
    have hcount := hE.refcnt_eq he
    have hfew := hE.few k
    have hless : signed 32 (e.refcnt - 1) = e.refcnt - 1 :=
      signed_of_range (by decide) (by omega) (by omega)
    refine ⟨e, he, hid, by omega, fun a ↦ ?_⟩
    have hfind := s.shared.find_ungetSection k a
    rwa [he, Option.map_some, hless] at hfind
  | ungetRead | enq => exact fun _ _ _ ↦ .inl rfl
  | @ungetEvict t k hp hw =>
    rintro k' (hpc | hpc | hpc)
    · cases hp.symm.trans hpc
    · cases hp.symm.trans hpc
      exact hE.find_evictHandle k
    · cases hp.symm.trans hpc
  | reserve hp | giveBack hp | popEmpty hp | evict hp | giveUp hp | insert hp =>
    rintro k (hpc | hpc | hpc) <;> cases hp.symm.trans hpc
  | get | putRefused | put | adviseEvict | flush | pop | alloc => trivial

/-- Nobody flushes, and nobody gets an entry that is held so many times as its count says. -/
def Few (n : Int) (s : State T H S) (a : Act T H S) : Prop := NoFlush s a ∧ GetsNotAt n s a

instance (n : Int) (s : State T H S) : DecidablePred (Few n s) :=
  fun a ↦ inferInstanceAs (Decidable (NoFlush s a ∧ GetsNotAt n s a))

/-- Holders stay as few as that. -/
private theorem few_step {n : Nat} (hn : 0 < n) {s s' : State T H S} {a : Act T H S}
    (hE : ExactUpTo n s.shared s.holds) (hget : GetsNotAt (signed 32 n) s a)
    (h : s.step a = some s') (k : H) : holders s'.holds k ≤ n := by
  have hfew := hE.few k
  cases step_refStep h with
  | quiet _ _ _ _ hh | advise _ _ _ hh | evict _ _ _ hh | flush _ _ hh =>
    rw [hh]
    exact hfew
  | get t k' _ hh =>
    rw [hh]
    cases he : s.shared.find k' with
    | none => exact hfew
    | some e =>
      have hne : holders s.holds k' ≠ n := by
        intro heq
        apply hget e he
        rw [hE.exact.count k' e he, heq]
      rw [holders_cons]
      split
      · next hk =>
        rw [hk] at hfew ⊢
        omega
      · exact hfew
  | unget t k' id hm _ hh =>
    have hless := holders_erase hm k
    rw [hh]
    omega
  | insert t k' x sz _ hh =>
    rw [hh]
    rcases s.shared.insertNew_cases k' x sz with ⟨e, -, hc⟩ | ⟨hnone, hc⟩
    · rw [hc]
      exact hfew
    · rw [hc, if_pos rfl, holders_cons]
      split
      · next hk =>
        have hzero : holders s.holds k = 0 := by
          apply List.countP_eq_zero.mpr
          intro r hr hrk
          obtain ⟨d, hd, -⟩ := hE.exact.found r hr
          rw [of_decide_eq_true hrk, hk, hnone] at hd
          cases hd
        omega
      · exact hfew

/-- Steps of such a run spare what is held, and keep counts exact. -/
theorem exactUpTo_step {n : Nat} (hn : 0 < n) (hlt : n < 2 ^ 32) {s s' : State T H S}
    {a : Act T H S} (hE : ExactUpTo n s.shared s.holds) (ha : Few (signed 32 n) s a)
    (h : s.step a = some s') : ExactUpTo n s'.shared s'.holds := by
  refine ⟨exact_step hE.exact ?_ h, few_step hn hE ha.2 h⟩
  cases a with
  | flush t => exact ha.1.elim
  | go t => exact fun v _ hdvd ↦ hE.holders_eq_zero hlt hdvd
  | _ => trivial

/-- For any number of threads and any interleaving without a flush, in which no `get` comes at a
time when the `int` is at its maximum: in all states of the run the counts are those of the holders,
and in all steps `unget` takes its count back from the entry that its holder has obtained, and does
nothing after that to an entry with references. -/
theorem countsHolders_of_few (max : Nat) (as : List (Act T H S))
    (h : (threads T H S max).AllSteps (Few (2 ^ 31 - 1)) (threads T H S max).init as) :
    (threads T H S max).AllStates CountsHolders (threads T H S max).init as ∧
      (threads T H S max).AllSteps UngetsExactly (threads T H S max).init as := by
  have hkeep : ∀ s a s', ExactUpTo (2 ^ 31 - 1) s.shared s.holds → Few (2 ^ 31 - 1) s a →
      (threads T H S max).step s a = some s' → ExactUpTo (2 ^ 31 - 1) s'.shared s'.holds :=
    fun s a s' hE ha hstep ↦ exactUpTo_step (by decide) (by decide) hE ha hstep
  constructor
  · exact (h.allStates _ hkeep (exactUpTo_new _ max)).imp _ fun _ hE ↦ hE.countsHolders
  · exact h.imp _ (fun s a s' hE _ _ ↦ hE.ungetsExactly a)
      (fun s a s' hE hstep ha ↦ hkeep s a s' hE ha hstep) (exactUpTo_new _ max)

/-- Two threads hold one entry. -/
theorem countsHolders_of_few_two :
    let M := threads (Fin 2) Nat Unit 10
    let as : List (Act (Fin 2) Nat Unit) := [.put 0 7 () 4, .go 0, .alloc 0 true, .go 0, .get 1 7,
      .unget 0 7 0, .unget 1 7 0, .go 1, .go 1]
    M.AllStates CountsHolders M.init as ∧ M.AllSteps UngetsExactly M.init as :=
  countsHolders_of_few 10 _ (by decide)

/-- Thread 0 gives the last reference to a marked entry back. Before it gets to evict that entry,
thread 1 evicts it, stores another one under the handle and gives its reference back. Then thread 0
evicts the other one. -/
theorem not_ungets_own : ¬ ∀ (max : Nat) (before after : List (Act (Fin 2) Nat Unit)) (t : Fin 2)
    (h id : Nat) (s s' : State (Fin 2) Nat Unit),
    (threads (Fin 2) Nat Unit max).AllSteps NoFlush (threads (Fin 2) Nat Unit max).init
        (before ++ .unget t h id :: after) →
      (threads (Fin 2) Nat Unit max).run (threads (Fin 2) Nat Unit max).init
          (before ++ .unget t h id :: after) = some s →
        (∀ a ∈ after, a.thread = t → a = .go t) → s.step (.go t) = some s' →
          ∀ k e, s.shared.find k = some e → e.id ≠ id → s'.shared.find k = some e := by
  intro h
  let before : List (Act (Fin 2) Nat Unit) := [.put 0 7 () 4, .go 0, .alloc 0 true, .go 0,
    .unget 0 7 0, .go 0, .go 0, .get 0 7, .adviseEvict 0 7]
  let after : List (Act (Fin 2) Nat Unit) := [.go 0, .put 1 8 () 8, .go 1, .go 1, .pop 1 7, .go 1,
    .go 1, .alloc 1 true, .go 1, .put 1 7 () 2, .go 1, .alloc 1 true, .go 1, .unget 1 7 2, .go 1,
    .go 1]
  obtain ⟨s, s', hrun, hstep, e, he, hid, hgone⟩ : ∃ s s',
      (threads (Fin 2) Nat Unit 10).run (threads (Fin 2) Nat Unit 10).init
          (before ++ .unget 0 7 0 :: after) = some s ∧
        s.step (.go 0) = some s' ∧ ∃ e, s.shared.find 7 = some e ∧ e.id ≠ 0 ∧
          s'.shared.find 7 = none :=
    ⟨_, _, rfl, rfl, _, rfl, by decide, by decide⟩
  have hstays := h 10 before after 0 7 0 s s' (by decide) hrun (by decide) hstep 7 e he hid
  cases hgone.symm.trans hstays

/-! ### Entries without references -/

/-- An entry without references is queued, or an `unget` of its handle has taken the last count back
and has yet to see to it, or an `evict()` has popped the handle and has yet to try it. While nobody
is inside the cache it is queued. -/
structure Evictable (s : State T H S) : Prop where
  minded : ∀ h e, s.shared.find h = some e → e.refcnt = 0 → h ∈ s.shared.toevict ∨
    (∃ t, (s.pc t).Ungets h) ∨ ∃ t k x sz, s.pc t = .evict k x sz h
  rest : (∀ t, s.pc t = .idle) → ∀ h e, s.shared.find h = some e → e.refcnt = 0 →
    h ∈ s.shared.toevict

omit [DecidableEq H] in
/-- The places where a thread has a handle in hand. -/
private theorem Pc.minds_iff (p : Pc H S) (h : H) :
    p.Minds h ↔ p.Ungets h ∨ ∃ k x sz, p = .evict k x sz h := by
  cases p <;> simp [Minds, Ungets]

omit [DecidableEq T] [Fintype T] in
theorem Queued.evictable {s : State T H S} (hQ : Queued s) : Evictable s := by
  constructor
  case minded =>
    intro h e he hr
    rcases hQ h e he hr with hin | ⟨t, ht⟩
    · exact .inl hin
    · rcases (s.pc t).minds_iff h |>.mp ht with hunget | hevict
      · exact .inr (.inl ⟨t, hunget⟩)
      · exact .inr (.inr ⟨t, hevict⟩)
  case rest =>
    intro hrest h e he hr
    rcases hQ h e he hr with hin | ⟨t, ht⟩
    · exact hin
    · exact absurd ht (Pc.not_minds_of_atRest ((s.pc t).atRest_iff.mpr (hrest t)) h)

/-- For any number of threads and any interleaving without a flush, in which no `get` brings a count
up to zero: in all states of the run no entry with a count of zero is lost to `evict()`. -/
theorem evictable_of_few (max : Nat) (as : List (Act T H S))
    (h : (threads T H S max).AllSteps (Few (-1)) (threads T H S max).init as) :
    (threads T H S max).AllStates Evictable (threads T H S max).init as := by
  have hkeep : ∀ s a s', (ExactUpTo (2 ^ 32 - 1) s.shared s.holds ∧ Queued s) → Few (-1) s a →
      (threads T H S max).step s a = some s' →
        ExactUpTo (2 ^ 32 - 1) s'.shared s'.holds ∧ Queued s' := by
    intro s a s' ⟨hE, hQ⟩ ha hstep
    refine ⟨exactUpTo_step (by decide) (by decide) hE ha hstep, queued_step ?_ hQ hstep⟩
    rintro t k rfl e he hzero
    have hfew := hE.few k
    apply ha.2 e he
    rw [hE.exact.count k e he, signed_signed_add] at hzero
    have hdvd : 2 ^ 32 ∣ holders s.holds k + 1 := signed_natCast_eq_zero.mp hzero
    have hall : holders s.holds k = 2 ^ 32 - 1 := by
      have := Nat.le_of_dvd (Nat.succ_pos _) hdvd
      omega
    rw [hE.exact.count k e he, hall]
    rfl
  exact (h.allStates _ hkeep ⟨exactUpTo_new _ max, attended_new _ max⟩).imp _
    fun _ hs ↦ hs.2.evictable

/-- Thread 0 gives the last reference back and queues the entry, thread 1 evicts it to make room. -/
theorem evictable_of_few_two :
    let M := threads (Fin 2) Nat Unit 10
    let as : List (Act (Fin 2) Nat Unit) := [.put 0 7 () 8, .go 0, .alloc 0 true, .go 0,
      .unget 0 7 0, .go 0, .go 0, .put 1 8 () 4, .go 1, .go 1, .pop 1 7, .go 1]
    M.AllStates Evictable M.init as :=
  evictable_of_few 10 _ (by decide)

/-- What any number of `get`s of one entry leaves. -/
private theorem run_replicate_get (max : Nat) (t : T) (h : H) (n : Nat) {s : State T H S}
    {e : Stuff S} {k : Int} (hidle : s.pc t = .idle) (he : s.shared.find h = some e)
    (hcount : e.refcnt = signed 32 k) :
    ∃ s', (threads T H S max).run s (List.replicate n (.get t h)) = some s' ∧ s'.pc = s.pc ∧
      s'.shared.toevict = s.shared.toevict ∧
        ∃ e', s'.shared.find h = some e' ∧ e'.refcnt = signed 32 (k + n) := by
  induction n generalizing s e k with
  | zero => exact ⟨s, rfl, rfl, rfl, e, he, by rwa [Int.natCast_zero, Int.add_zero]⟩
  | succ n ih =>
    obtain ⟨s₁, hstep, hpc₁, hshared⟩ : ∃ s₁, s.step (.get t h) = some s₁ ∧ s₁.pc = s.pc ∧
        s₁.shared = (s.shared.getSection h).2 := by
      simp only [State.step, hidle]
      exact ⟨_, rfl, rfl, rfl⟩
    have hfind : s₁.shared.find h = some { e with refcnt := signed 32 (e.refcnt + 1) } := by
      rw [hshared, Cache.find_getSection, if_pos rfl, he]
      rfl
    have hnext : signed 32 (e.refcnt + 1) = signed 32 (k + 1) := by
      rw [hcount, signed_signed_add]
    obtain ⟨s', hrun, hpc, hqueue, e', he', hcount'⟩ :=
      ih (s := s₁) (by rw [hpc₁, hidle]) hfind hnext
    refine ⟨s', ?_, hpc.trans hpc₁, by rw [hqueue, hshared]; rfl, e', he', ?_⟩
    · rw [List.replicate_succ, Machine.run_cons]
      change (s.step (.get t h)).bind _ = _
      rw [hstep]
      exact hrun
    · rw [hcount', Int.natCast_succ, Int.add_assoc, Int.add_comm 1]

/-- Thread 0 stores an entry and gets it so often that the `int` comes up to zero again. Nobody has
queued the entry, and nobody is about to. -/
theorem not_evictable_of_wrap : ¬ ∀ (max : Nat) (as : List (Act (Fin 2) Nat Unit)),
    let M := threads (Fin 2) Nat Unit max
    M.AllSteps NoFlush M.init as → M.AllStates Evictable M.init as := by
  intro h
  let M := threads (Fin 2) Nat Unit 10
  let put : List (Act (Fin 2) Nat Unit) := [.put 0 7 () 4, .go 0, .alloc 0 true, .go 0]
  obtain ⟨n, hn⟩ : ∃ n, n = 2 ^ 32 - 1 := ⟨_, rfl⟩
  obtain ⟨s, hput, hidle, hqueue, e, he, hone⟩ : ∃ s, M.run M.init put = some s ∧
      (∀ t, s.pc t = .idle) ∧ s.shared.toevict = [] ∧
        ∃ e, s.shared.find 7 = some e ∧ e.refcnt = signed 32 1 :=
    ⟨_, rfl, by decide, rfl, _, rfl, by decide⟩
  obtain ⟨s', hgets, hpc, hqueue', e', he', hcount⟩ :=
    run_replicate_get 10 (0 : Fin 2) 7 n (hidle 0) he hone
  have hflushless : M.AllSteps NoFlush M.init (put ++ List.replicate n (.get 0 7)) := by
    have hput : ∀ a ∈ put, ∀ t, a ≠ .flush t := by decide
    apply Machine.allSteps_of_forall
    intro a ha s
    rcases List.mem_append.mp ha with ha | ha
    · cases a with
      | flush t => exact hput _ ha t rfl
      | _ => trivial
    · rw [List.eq_of_mem_replicate ha]
      trivial
  have hrun : M.run M.init (put ++ List.replicate n (.get 0 7)) = some s' := by
    rw [Machine.run_append, hput]
    exact hgets
  have hlast := Machine.AllStates.last _ (h 10 _ hflushless) hrun
  have hzero : e'.refcnt = 0 := by
    rw [hcount, hn]
    decide
  have hin := hlast.rest (fun t ↦ by rw [hpc, hidle t]) 7 e' he' hzero
  rw [hqueue', hqueue] at hin
  cases hin

end Filth.Cache
