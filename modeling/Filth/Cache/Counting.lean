import Filth.Cache.Pinning

/-!
# Counts of entries, and the queue of those without references

`Filth.Cache.Pinning` follows counts as long as nothing that is held is deleted. Here a flush may
come at any time: what is counted for an entry are the references to that very entry, as far as
they fit into an `int`, and a reference given back must be to the entry that is under the handle by
then. An entry that has been given back for good is in the queue of `evict()`, or a thread inside
the cache has it in hand.
-/

namespace Filth.Cache

open Base

namespace Pc

variable {H S : Type}

/-- The thread will evict the entry under a handle, or queue the handle. -/
def Minds (p : Pc H S) (h : H) : Prop :=
  match p with
  | .ungetRead k | .ungetEvict k | .enq k | .evict _ _ _ k => k = h
  | _ => False

/-- The thread is outside of the cache. -/
def atRest : Pc H S → Bool
  | idle => true
  | _ => false

theorem atRest_iff (p : Pc H S) : p.atRest = true ↔ p = .idle := by
  cases p <;> simp [atRest]

/-- A thread at rest has nothing in hand. -/
theorem not_minds_of_atRest {p : Pc H S} (hp : p.atRest = true) (h : H) : ¬ p.Minds h := by
  rw [p.atRest_iff.mp hp]
  exact id

end Pc

/-- The thread that takes a step. -/
def Act.thread {T H S : Type} : Act T H S → T
  | get t _ | unget t _ _ | put t _ _ _ | adviseEvict t _ | flush t | pop t _ | alloc t _ | go t => t

variable {T H S : Type} [DecidableEq H]

/-- Number of references to one entry under a handle. -/
def refsTo (hs : List (Hold T H)) (h : H) (id : Nat) : Nat :=
  hs.countP fun r ↦ decide (r.handle = h ∧ r.id = id)

/-- The count of an entry is the number of references to it, in 32 bits, and numbers of entries are
not used twice. -/
structure Counted (c : Cache H S) (hs : List (Hold T H)) : Prop where
  count : ∀ h e, c.find h = some e → e.refcnt = signed 32 (refsTo hs h e.id)
  stored : ∀ h e, c.find h = some e → e.id < c.stored
  held : ∀ r ∈ hs, r.id < c.stored

/-- A new cache counts right. -/
theorem counted_new (max : Nat) : Counted (Cache.new max : Cache H S) ([] : List (Hold T H)) := by
  have hn (h : H) (e : Stuff S) : (Cache.new max : Cache H S).find h ≠ some e := by
    rw [Cache.find_new]
    exact Option.some_ne_none e ∘ Eq.symm
  constructor
  case count => exact fun h e he ↦ absurd he (hn h e)
  case stored => exact fun h e he ↦ absurd he (hn h e)
  case held => exact fun r hr ↦ absurd hr List.not_mem_nil

/-- One more reference. -/
theorem refsTo_cons (hs : List (Hold T H)) (r : Hold T H) (a : H) (i : Nat) :
    refsTo (r :: hs) a i = refsTo hs a i + if r.handle = a ∧ r.id = i then 1 else 0 := by
  unfold refsTo
  rw [List.countP_cons]
  simp only [decide_eq_true_eq]

/-- Where nothing is held no entry has references. -/
theorem refsTo_nil (h : H) (id : Nat) : refsTo ([] : List (Hold T H)) h id = 0 := rfl

/-- Nobody refers to an entry that is still to be stored. -/
private theorem Counted.refsTo_stored {c : Cache H S} {hs : List (Hold T H)} (hC : Counted c hs)
    (h : H) :
    refsTo hs h c.stored = 0 := by
  apply List.countP_eq_zero.mpr
  intro r hr hboth
  have := hC.held r hr
  simp only [decide_eq_true_eq] at hboth
  omega

/-- A section that leaves entries out keeps the counts of the others. -/
theorem Counted.fewer {c c' : Cache H S} {hs : List (Hold T H)} (hC : Counted c hs)
    (hfind : ∀ a e, c'.find a = some e → c.find a = some e) (hst : c'.stored = c.stored) :
    Counted c' hs := by
  constructor
  case count => exact fun a e he ↦ hC.count a e (hfind a e he)
  case stored =>
    intro a e he
    rw [hst]
    exact hC.stored a e (hfind a e he)
  case held =>
    rw [hst]
    exact hC.held

/-- A section that changes entries in place counts right if it counts as the references do. -/
theorem Counted.inPlace {c c' : Cache H S} {hs hs' : List (Hold T H)} (hC : Counted c hs)
    {g : H → Stuff S → Stuff S} (hid : ∀ a e, (g a e).id = e.id)
    (hfind : ∀ a, c'.find a = (c.find a).map (g a)) (hst : c'.stored = c.stored)
    (hheld : ∀ r ∈ hs', r.id < c.stored)
    (hcount : ∀ a e, c.find a = some e → (g a e).refcnt = signed 32 (refsTo hs' a e.id)) :
    Counted c' hs' := by
  constructor
  case count =>
    intro a e he
    obtain ⟨d, hd, rfl⟩ := Cache.exists_of_find_map hfind he
    rw [hid]
    exact hcount a d hd
  case stored =>
    intro a e he
    obtain ⟨d, hd, rfl⟩ := Cache.exists_of_find_map hfind he
    rw [hid, hst]
    exact hC.stored a d hd
  case held =>
    rw [hst]
    exact hheld

/-- `get` counts the reference it hands out. -/
private theorem counted_get {c : Cache H S} {hs : List (Hold T H)} (hC : Counted c hs) (t : T)
    (h : H) :
    Counted (c.getSection h).2 (match c.find h with
      | none => hs
      | some e => ⟨t, h, e.id⟩ :: hs) := by
  apply hC.inPlace (g := fun a e ↦
    if a = h then { e with refcnt := signed 32 (e.refcnt + 1) } else e)
  · intro a e
    split <;> rfl
  · intro a
    rw [Cache.find_getSection]
    by_cases ha : a = h
    · subst ha
      simp
    · simp [ha]
  · rfl
  · intro r hr
    split at hr
    · exact hC.held r hr
    · next e he =>
      rcases List.mem_cons.mp hr with rfl | hr
      · exact hC.stored h e he
      · exact hC.held r hr
  · intro a e he
    have hc := hC.count a e he
    by_cases ha : a = h
    · subst ha
      simp only [he, refsTo_cons, and_self, ↓reduceIte, hc]
      exact signed_signed_add 32 _ 1
    · simp only [ha, ↓reduceIte, hc]
      split
      · rfl
      · rw [refsTo_cons]
        simp [Ne.symm ha]

/-- Advising an eviction touches no count. -/
private theorem counted_advise {c : Cache H S} {hs : List (Hold T H)} (hC : Counted c hs) (h : H) :
    Counted (c.adviseEvict h) hs := by
  apply hC.inPlace (g := fun a e ↦ if a = h then { e with invalid := true } else e)
  · intro a e
    split <;> rfl
  · intro a
    rw [Cache.find_adviseEvict]
    by_cases ha : a = h
    · subst ha
      simp
    · simp [ha]
  · rfl
  · exact hC.held
  · intro a e he
    rw [← hC.count a e he]
    split <;> rfl

/-- An eviction leaves the other entries alone. -/
private theorem counted_evict {c : Cache H S} {hs : List (Hold T H)} (hC : Counted c hs) (v : H) :
    Counted (c.evictHandle v).2 hs :=
  hC.fewer (fun _ _ hd ↦ (Cache.find_of_evictHandle hd).1) (c.stored_evictHandle v)

/-- A flush leaves no entry to count for. -/
private theorem counted_flush {c : Cache H S} {hs : List (Hold T H)} (hC : Counted c hs) :
    Counted c.flush hs := by
  apply hC.fewer
  · intro a d hd
    rw [c.find_flush] at hd
    cases hd
  · rfl

/-- A stored entry starts with the one reference of its `put`. -/
private theorem counted_insert {c : Cache H S} {hs : List (Hold T H)} (hC : Counted c hs) (t : T)
    (h : H) (x : S) (sz : Nat) :
    Counted (c.insertNew h x sz).2
      (if (c.insertNew h x sz).1 then ⟨t, h, c.stored⟩ :: hs else hs) := by
  rcases c.insertNew_cases h x sz with ⟨e, -, hc⟩ | ⟨-, hc⟩
  · rw [hc]
    exact hC
  · rw [hc]
    let new : Stuff S := { s := x, refcnt := 1, invalid := false, sz := sz, id := c.stored }
    have hcases (a : H) (d : Stuff S) (hd : (c.cache.insert h new).lookup a = some d) :
        (a = h ∧ d = new) ∨ (a ≠ h ∧ c.find a = some d) := lookup_insert_eq_some hd
    simp only [↓reduceIte]
    constructor
    case count =>
      intro a d hd
      rw [refsTo_cons]
      rcases hcases a d hd with ⟨rfl, rfl⟩ | ⟨ha, hcd⟩
      · rw [hC.refsTo_stored a, if_pos ⟨rfl, rfl⟩]
        rfl
      · rw [if_neg fun h ↦ ha h.1.symm, Nat.add_zero]
        exact hC.count a d hcd
    case stored =>
      intro a d hd
      change d.id < c.stored + 1
      rcases hcases a d hd with ⟨-, rfl⟩ | ⟨-, hcd⟩
      · exact Nat.lt_succ_self _
      · exact Nat.lt_succ_of_lt (hC.stored a d hcd)
    case held =>
      intro r hr
      change r.id < c.stored + 1
      rcases List.mem_cons.mp hr with rfl | hr
      · exact Nat.lt_succ_self _
      · exact Nat.lt_succ_of_lt (hC.held r hr)

/-! ### The queue -/

/-- What is idle under a handle is queued, or a thread is about to see to it. -/
def Attended (Idle : H → Stuff S → Prop) (s : State T H S) : Prop :=
  ∀ h e, s.shared.find h = some e → Idle h e → h ∈ s.shared.toevict ∨ ∃ t, (s.pc t).Minds h

/-- An entry whose count is zero is queued, or a thread is about to see to it. -/
def Queued : State T H S → Prop := Attended fun _ e ↦ e.refcnt = 0

/-- An entry that nobody refers to is queued, or a thread is about to see to it. -/
def Unreferred (s : State T H S) : Prop := Attended (fun h e ↦ refsTo s.holds h e.id = 0) s

/-- A new cache has nothing to queue. -/
theorem attended_new (Idle : H → Stuff S → Prop) (max : Nat) :
    Attended Idle { shared := Cache.new max, pc := fun _ ↦ .idle, holds := [] : State T H S } := by
  intro h e he
  change (Cache.new max : Cache H S).find h = some e at he
  rw [Cache.find_new] at he
  cases he

/-- A section of one thread. What is idle after it is queued by then, or in the hands of the thread,
or it was idle and not in the hands of the thread before. -/
theorem Attended.of_section {Idle Idle' : H → Stuff S → Prop} {s s' : State T H S}
    (hQ : Attended Idle s) (t : T) (hpc : ∀ u, u ≠ t → s'.pc u = s.pc u)
    (hidle : ∀ a e, s'.shared.find a = some e → Idle' a e →
      a ∈ s'.shared.toevict ∨ (s'.pc t).Minds a ∨
        (∃ d, s.shared.find a = some d ∧ Idle a d) ∧
          (a ∈ s.shared.toevict → a ∈ s'.shared.toevict) ∧ ¬ (s.pc t).Minds a) :
    Attended Idle' s' := by
  intro a e he hr
  rcases hidle a e he hr with hin | hminds | ⟨⟨d, hd, hz⟩, hkept, hfree⟩
  · exact .inl hin
  · exact .inr ⟨t, hminds⟩
  · rcases hQ a d hd hz with hin | ⟨u, hu⟩
    · exact .inl (hkept hin)
    · have hne : u ≠ t := by
        rintro rfl
        exact hfree hu
      refine .inr ⟨u, ?_⟩
      rwa [hpc u hne]

/-- A section that makes no entry idle, of a thread that has nothing in hand. -/
theorem Attended.of_quiet {Idle Idle' : H → Stuff S → Prop} {s s' : State T H S}
    (hQ : Attended Idle s) (t : T) (hpc : ∀ u, u ≠ t → s'.pc u = s.pc u)
    (hfree : ∀ a, ¬ (s.pc t).Minds a) (hq : s'.shared.toevict = s.shared.toevict)
    (hidle : ∀ a e, s'.shared.find a = some e → Idle' a e →
      ∃ d, s.shared.find a = some d ∧ Idle a d) : Attended Idle' s' := by
  apply hQ.of_section t hpc
  intro a e he hr
  exact .inr (.inr ⟨hidle a e he hr, by rw [hq]; exact id, hfree a⟩)

variable [DecidableEq T]

/-- One reference less. -/
theorem refsTo_erase {hs : List (Hold T H)} {r : Hold T H} (hm : r ∈ hs) (a : H) (i : Nat) :
    refsTo hs a i = refsTo (hs.erase r) a i + if r.handle = a ∧ r.id = i then 1 else 0 := by
  rw [← refsTo_cons]
  exact (List.perm_cons_erase hm).countP_eq _

/-- `unget` counts the reference it takes back, if that is one to the entry it finds. -/
private theorem counted_unget {c : Cache H S} {hs : List (Hold T H)} (hC : Counted c hs) {t : T}
    {h : H} {id : Nat} (hm : ⟨t, h, id⟩ ∈ hs) (hid : ∀ e, c.find h = some e → e.id = id) :
    Counted (c.ungetSection h).2 (hs.erase ⟨t, h, id⟩) := by
  apply hC.inPlace (g := fun a e ↦
    if a = h then { e with refcnt := signed 32 (e.refcnt - 1) } else e)
  · intro a e
    split <;> rfl
  · intro a
    rw [Cache.find_ungetSection]
    by_cases ha : a = h
    · subst ha
      simp
    · simp [ha]
  · rfl
  · exact fun r hr ↦ hC.held r (List.mem_of_mem_erase hr)
  · intro a e he
    have hc := hC.count a e he
    have hh := refsTo_erase hm a e.id
    by_cases ha : a = h
    · subst ha
      rw [hid e he] at hc hh ⊢
      simp only [and_self, ↓reduceIte] at hh ⊢
      rw [hc, hh, Int.sub_eq_add_neg, signed_signed_add]
      exact congrArg (signed 32) (by omega)
    · simp only [ha, Ne.symm ha, false_and, ↓reduceIte, Nat.add_zero] at hh ⊢
      rw [hc, hh]

variable [Fintype T]

/-- A step leaves what other threads are at. -/
theorem State.pc_step_of_ne {s s' : State T H S} {a : Act T H S} (h : s.step a = some s') {u : T}
    (hu : u ≠ a.thread) : s'.pc u = s.pc u := by
  cases State.step_moves h with
  | get | putRefused | adviseEvict | flush => rfl
  | _ => exact Function.update_of_ne hu _ _

/-- What is given back is a reference to the entry under the handle, if there is one. -/
def UngetsOwn (s : State T H S) : Act T H S → Prop
  | .unget _ h id => ∀ e, s.shared.find h = some e → e.id = id
  | _ => True

/-- Steps count right. -/
theorem counted_step {s s' : State T H S} {a : Act T H S} (hC : Counted s.shared s.holds)
    (ha : UngetsOwn s a) (h : s.step a = some s') : Counted s'.shared s'.holds := by
  cases step_refStep h with
  | quiet _ hc hs _ hh =>
    rw [hh]
    refine hC.fewer (fun a e he ↦ ?_) hs
    rwa [Cache.find, hc] at he
  | advise t k hc hh => rw [hc, hh]; exact counted_advise hC k
  | get t k hc hh => rw [hc, hh]; exact counted_get hC t k
  | unget t k id hm hc hh => rw [hc, hh]; exact counted_unget hC hm ha
  | evict t v hc hh => rw [hc, hh]; exact counted_evict hC v
  | insert t k x sz hc hh => rw [hc, hh]; exact counted_insert hC t k x sz
  | flush t hc hh => rw [hc, hh]; exact counted_flush hC

/-- Steps leave nothing that is idle unattended, if what is idle has a count of zero, and nothing
gets idle but in an `unget` of its handle. -/
theorem attended_step {Idle Idle' : H → Stuff S → Prop} {s s' : State T H S} {a : Act T H S}
    (hzero : ∀ k e, s'.shared.find k = some e → Idle' k e → e.refcnt = 0)
    (hkept : ∀ k e, s'.shared.find k = some e → Idle' k e →
      (∃ d, s.shared.find k = some d ∧ Idle k d) ∨ ∃ t id, a = .unget t k id)
    (hQ : Attended Idle s) (h : s.step a = some s') : Attended Idle' s' := by
  have hother {t : T} {p : Pc H S} (u : T) (hne : u ≠ t) : Function.update s.pc t p u = s.pc u :=
    Function.update_of_ne hne _ _
  have hself {t : T} {c : Cache H S} {p : Pc H S} : (s.move t c p).pc t = p :=
    Function.update_self _ _ _
  have hbefore (hnot : ∀ t k id, a ≠ .unget t k id) (k : H) (e : Stuff S)
      (he : s'.shared.find k = some e) (hidle : Idle' k e) :
      ∃ d, s.shared.find k = some d ∧ Idle k d := by
    refine (hkept k e he hidle).resolve_right ?_
    rintro ⟨t, id, hunget⟩
    exact hnot t k id hunget
  cases State.step_moves h with
  | @unget t k i hp hm =>
    refine hQ.of_section t hother ?_
    intro b e he hidle
    have hr := hzero b e he hidle
    by_cases hb : b = k
    · -- the count has come down to zero, so the thread goes on to queue the handle
      subst hb
      change (s.shared.ungetSection b).2.find b = some e at he
      rw [Cache.find_ungetSection, if_pos rfl] at he
      obtain ⟨d, hd, rfl⟩ := Option.map_eq_some_iff.mp he
      have hlast : (s.shared.ungetSection b).1 = true := by
        simp only [Cache.ungetSection, hd]
        exact decide_eq_true hr
      right; left
      change (Function.update s.pc t _ t).Minds b
      rw [Function.update_self, hlast]
      rfl
    · have hsame := (hkept b e he hidle).resolve_right (by
        rintro ⟨u, id, hunget⟩
        cases hunget
        exact hb rfl)
      exact .inr (.inr ⟨hsame, id, by rw [hp]; exact id⟩)
  | @get t k hp | @adviseEvict t k hp | @flush t hp hw =>
    exact hQ.of_quiet t (fun _ _ ↦ rfl) (by rw [hp]; exact fun _ ↦ id) rfl (hbefore (by simp))
  | @putRefused t k x sz hp =>
    exact hQ.of_quiet t (fun _ _ ↦ rfl) (by rw [hp]; exact fun _ ↦ id) rfl (hbefore (by simp))
  | put hp | reserve hp | giveBack hp | popEmpty hp | alloc hp | giveUp hp =>
    exact hQ.of_quiet _ hother (by rw [hp]; exact fun _ ↦ id) rfl (hbefore (by simp))
  | @insert t k x sz hp hw =>
    exact hQ.of_quiet t hother (by rw [hp]; exact fun _ ↦ id) (Cache.toevict_insertNew _ _ _ _)
      (hbefore (by simp))
  | @pop t k x sz v hp hv =>
    refine hQ.of_section t hother ?_
    intro b e he hidle
    by_cases hb : b = v
    · right; left
      rw [hself, hb]
      rfl
    · refine .inr (.inr ⟨hbefore (by simp) b e he hidle, fun hin ↦ ?_, by rw [hp]; exact id⟩)
      exact (List.mem_erase_of_ne hb).mpr hin
  | @evict t _ _ _ v hp | @ungetEvict t v hp =>
    refine hQ.of_section t hother ?_
    intro b e he hidle
    have hr := hzero b e he hidle
    -- what is left of an attempt to evict is not idle
    have hheld := (Cache.find_of_evictHandle he).2
    refine .inr (.inr ⟨hbefore (by simp) b e he hidle, fun hin ↦ ?_,
      by rw [hp]; exact fun hv ↦ hheld hv.symm hr⟩)
    change b ∈ (s.shared.evictHandle v).2.toevict
    rwa [Cache.toevict_evictHandle]
  | @ungetRead t k hp =>
    refine hQ.of_section t hother ?_
    intro b e he hidle
    by_cases hb : k = b
    · right; left
      rw [hself]
      split <;> exact hb
    · exact .inr (.inr ⟨hbefore (by simp) b e he hidle, id, by rw [hp]; exact hb⟩)
  | @enq t k hp =>
    refine hQ.of_section t hother ?_
    intro b e he hidle
    by_cases hb : k = b
    · left
      subst hb
      exact List.mem_insert_self
    · refine .inr (.inr ⟨hbefore (by simp) b e he hidle, fun hin ↦ ?_, by rw [hp]; exact hb⟩)
      exact List.mem_insert_of_mem hin

/-- What a `get` finds does not have this count. -/
def GetsNotAt (n : Int) (s : State T H S) : Act T H S → Prop
  | .get _ h => ∀ e ∈ s.shared.find h, e.refcnt ≠ n
  | _ => True

instance (n : Int) (s : State T H S) : DecidablePred (GetsNotAt n s)
  | .get _ h => inferInstanceAs (Decidable (∀ e ∈ s.shared.find h, e.refcnt ≠ n))
  | .unget .. | .put .. | .adviseEvict .. | .flush _ | .pop .. | .alloc .. | .go _ =>
    .isTrue trivial

/-- Where an entry comes from: it was there with a count as far from zero, unless a `get` or an
`unget` of its handle has changed that, or it is fresh. -/
theorem find_of_step {s s' : State T H S} {a : Act T H S} (h : s.step a = some s') {k : H}
    {e : Stuff S} (he : s'.shared.find k = some e) :
    (∃ d, s.shared.find k = some d ∧ d.id = e.id ∧
      ((∃ t, a = .get t k) ∧ e.refcnt = signed 32 (d.refcnt + 1) ∨
        (∃ t id, a = .unget t k id) ∧ e.refcnt = signed 32 (d.refcnt - 1) ∨
        e.refcnt = d.refcnt)) ∨ e.refcnt = 1 := by
  cases step_refStep h with
  | quiet _ hc =>
    rw [Cache.find, hc] at he
    exact .inl ⟨e, he, rfl, .inr (.inr rfl)⟩
  | advise t k' hc =>
    rw [hc, Cache.find_adviseEvict] at he
    split at he
    · next hk =>
      obtain ⟨d, hd, rfl⟩ := Option.map_eq_some_iff.mp he
      exact .inl ⟨d, hk ▸ hd, rfl, .inr (.inr rfl)⟩
    · exact .inl ⟨e, he, rfl, .inr (.inr rfl)⟩
  | get t k' hc =>
    rw [hc, Cache.find_getSection] at he
    split at he
    · next hk =>
      obtain ⟨d, hd, rfl⟩ := Option.map_eq_some_iff.mp he
      exact .inl ⟨d, hk ▸ hd, rfl, .inl ⟨⟨t, hk ▸ rfl⟩, rfl⟩⟩
    · exact .inl ⟨e, he, rfl, .inr (.inr rfl)⟩
  | unget t k' id hm hc =>
    rw [hc, Cache.find_ungetSection] at he
    split at he
    · next hk =>
      obtain ⟨d, hd, rfl⟩ := Option.map_eq_some_iff.mp he
      exact .inl ⟨d, hk ▸ hd, rfl, .inr (.inl ⟨⟨t, id, hk ▸ rfl⟩, rfl⟩)⟩
    · exact .inl ⟨e, he, rfl, .inr (.inr rfl)⟩
  | evict t v hc =>
    rw [hc] at he
    exact .inl ⟨e, (Cache.find_of_evictHandle he).1, rfl, .inr (.inr rfl)⟩
  | insert t k' x sz hc =>
    rw [hc] at he
    rcases Cache.find_of_insertNew he with he | ⟨-, rfl⟩
    · exact .inl ⟨e, he, rfl, .inr (.inr rfl)⟩
    · exact .inr rfl
  | flush t hc =>
    rw [hc, Cache.find_flush] at he
    cases he

/-- Steps leave no entry with a count of zero unattended, unless a `get` counts one up to zero. -/
theorem queued_step {s s' : State T H S} {a : Act T H S}
    (hget : ∀ t k, a = .get t k → ∀ e, s.shared.find k = some e → signed 32 (e.refcnt + 1) ≠ 0)
    (hQ : Queued s) (h : s.step a = some s') : Queued s' := by
  apply attended_step (fun _ _ _ ↦ id) _ hQ h
  intro k e he hzero
  rcases find_of_step h he with ⟨d, hd, -, ⟨⟨t, ha⟩, hcount⟩ | ⟨hunget, -⟩ | hcount⟩ | hfresh
  · exact absurd (hcount.symm.trans hzero) (hget t k ha d hd)
  · exact .inr hunget
  · exact .inl ⟨d, hd, hcount.symm.trans hzero⟩
  · cases hfresh.symm.trans hzero

/-- References under a handle are given back by an `unget` of that handle alone. -/
private theorem refsTo_le_of_step {s s' : State T H S} {a : Act T H S} (h : s.step a = some s')
    {k : H} (hnot : ∀ t id, a ≠ .unget t k id) (i : Nat) :
    refsTo s.holds k i ≤ refsTo s'.holds k i := by
  cases step_refStep h with
  | quiet _ _ _ _ hh | advise _ _ _ hh | evict _ _ _ hh | flush _ _ hh => rw [hh]
  | get t k' _ hh =>
    rw [hh]
    split
    · exact le_rfl
    · rw [refsTo_cons]
      exact Nat.le_add_right _ _
  | insert t k' x sz _ hh =>
    rw [hh]
    split
    · rw [refsTo_cons]
      exact Nat.le_add_right _ _
    · exact le_rfl
  | unget t k' id hm _ hh =>
    have hne : k' ≠ k := by
      rintro rfl
      exact hnot t id rfl
    rw [hh, refsTo_erase hm, if_neg fun h ↦ hne h.1]
    exact le_rfl

/-- Steps leave no entry that nobody refers to unattended, whatever has become of its count: the
`unget` that gives the last reference back finds a count of one. -/
theorem unreferred_step {s s' : State T H S} {a : Act T H S} (hC : Counted s'.shared s'.holds)
    (hQ : Unreferred s) (h : s.step a = some s') : Unreferred s' := by
  have hzero (k : H) (e : Stuff S) (he : s'.shared.find k = some e)
      (hnone : refsTo s'.holds k e.id = 0) : e.refcnt = 0 := by
    rw [hC.count k e he, hnone]
    rfl
  refine attended_step hzero ?_ hQ h
  intro k e he hnone
  by_cases hunget : ∃ t id, a = .unget t k id
  · exact .inr hunget
  · rcases find_of_step h he with ⟨d, hd, hid, -⟩ | hfresh
    · have hle := refsTo_le_of_step h (k := k) (fun t id ha ↦ hunget ⟨t, id, ha⟩) e.id
      refine .inl ⟨d, hd, ?_⟩
      rw [hid]
      omega
    · cases hfresh.symm.trans (hzero k e he hnone)

end Filth.Cache
