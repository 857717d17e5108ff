import Filth.Cache.Threads

/-!
# Pinning: a held entry is not deleted

`src/Cache.hpp:12–15` promises that between a successful `get` and the matching `unget` the
entry does not go away. Counts are exact as long as nobody flushes: the entry under a handle
is the one that every holder of the handle obtained, and its count is the number of holders, as
far as that fits into an `int`. `evict(h)` looks at the count again inside its own write section,
so it spares held entries unless the count has wrapped around to zero. `flush` does not look, so
it is safe only when nothing is held.
-/

namespace Filth.Cache

open Base

variable {T H S : Type} [DecidableEq H]

/-- Number of references to the entry under a handle. -/
def holders (hs : List (Hold T H)) (h : H) : Nat := hs.countP fun r ↦ decide (r.handle = h)

/-- No held entry has been deleted. -/
def Pinned (s : State T H S) : Prop := ∀ r ∈ s.holds, r.id ∉ s.shared.deleted

instance (s : State T H S) : Decidable (Pinned s) :=
  inferInstanceAs (Decidable (∀ r ∈ s.holds, r.id ∉ s.shared.deleted))

/-- The handle that a thread is about to pass to `evict(h)`. -/
def Pc.victim : Pc H S → Option H
  | .evict _ _ _ v | .ungetEvict v => some v
  | _ => none

/-- A flush comes at a time when no reference is held, and `evict(h)` not at a time when a positive
multiple of `2 ^ 32` references to the entry is. Other steps are free. -/
def Spares (s : State T H S) : Act T H S → Prop
  | .flush _ => s.holds = []
  | .go t => ∀ v, (s.pc t).victim = some v → 2 ^ 32 ∣ holders s.holds v → holders s.holds v = 0
  | _ => True

/-- The counts of a cache are those of the references held, in 32 bits, and the objects it has
stored are told apart by their numbers. -/
structure Exact (c : Cache H S) (hs : List (Hold T H)) : Prop where
  found : ∀ r ∈ hs, ∃ e, c.find r.handle = some e ∧ e.id = r.id
  count : ∀ h e, c.find h = some e → e.refcnt = signed 32 (holders hs h)
  live : ∀ h e, c.find h = some e → e.id ∉ c.deleted
  apart : ∀ h k e d, c.find h = some e → c.find k = some d → e.id = d.id → h = k
  stored : ∀ h e, c.find h = some e → e.id < c.stored
  deleted : ∀ i ∈ c.deleted, i < c.stored

/-- Exact counts pin what is held. -/
theorem Exact.pinned {s : State T H S} (h : Exact s.shared s.holds) : Pinned s := by
  intro r hr
  obtain ⟨e, he, hid⟩ := h.found r hr
  rw [← hid]
  exact h.live r.handle e he

/-- Without entries and holders there is nothing to count. -/
theorem exact_of_empty {c : Cache H S} (hnone : ∀ h, c.find h = none)
    (hdeleted : ∀ i ∈ c.deleted, i < c.stored) : Exact c ([] : List (Hold T H)) := by
  have hn (h : H) (e : Stuff S) : c.find h ≠ some e := by
    rw [hnone]
    exact Option.some_ne_none e ∘ Eq.symm
  constructor
  case found => exact fun r hr ↦ absurd hr List.not_mem_nil
  case count => exact fun h e he ↦ absurd he (hn h e)
  case live => exact fun h e he ↦ absurd he (hn h e)
  case apart => exact fun h _ e _ he ↦ absurd he (hn h e)
  case stored => exact fun h e he ↦ absurd he (hn h e)
  case deleted => exact hdeleted

/-- A new cache without holders has exact counts. -/
theorem exact_new (max : Nat) : Exact (Cache.new max : Cache H S) ([] : List (Hold T H)) :=
  exact_of_empty (Cache.find_new max) fun _ hi ↦ absurd hi List.not_mem_nil

/-- One more reference to the entry under `h`. -/
theorem holders_cons (hs : List (Hold T H)) (t : T) (h a : H) (id : Nat) :
    holders (⟨t, h, id⟩ :: hs) a = holders hs a + if a = h then 1 else 0 := by
  unfold holders
  rw [List.countP_cons]
  simp only [decide_eq_true_eq, eq_comm (a := h)]

/-- A section that changes entries in place, keeping their numbers, keeps counts exact if it
counts as the references do. -/
theorem Exact.inPlace {c c' : Cache H S} {hs hs' : List (Hold T H)} (h : Exact c hs)
    {g : H → Stuff S → Stuff S} (hid : ∀ a e, (g a e).id = e.id)
    (hfind : ∀ a, c'.find a = (c.find a).map (g a))
    (hst : c'.stored = c.stored) (hd : c'.deleted = c.deleted)
    (hfound : ∀ r ∈ hs', ∃ e, c.find r.handle = some e ∧ e.id = r.id)
    (hcount : ∀ a e, c.find a = some e → (g a e).refcnt = signed 32 (holders hs' a)) :
    Exact c' hs' := by
  constructor
  case found =>
    intro r hr
    obtain ⟨e, he, hr⟩ := hfound r hr
    exact ⟨g r.handle e, by rw [hfind, he]; rfl, (hid _ _).trans hr⟩
  case count =>
    intro a e he
    obtain ⟨d, hd, rfl⟩ := Cache.exists_of_find_map hfind he
    exact hcount a d hd
  case live =>
    intro a e he
    obtain ⟨d, hcd, rfl⟩ := Cache.exists_of_find_map hfind he
    rw [hid, hd]
    exact h.live a d hcd
  case apart =>
    intro a b e d he hb
    obtain ⟨e, hce, rfl⟩ := Cache.exists_of_find_map hfind he
    obtain ⟨d, hcd, rfl⟩ := Cache.exists_of_find_map hfind hb
    rw [hid, hid]
    exact h.apart a b e d hce hcd
  case stored =>
    intro a e he
    obtain ⟨d, hcd, rfl⟩ := Cache.exists_of_find_map hfind he
    rw [hid, hst]
    exact h.stored a d hcd
  case deleted =>
    rw [hd, hst]
    exact h.deleted

/-- `get` counts the reference it hands out. -/
private theorem exact_get {c : Cache H S} {hs : List (Hold T H)} (hE : Exact c hs) (t : T) (h : H) :
    Exact (c.getSection h).2 (match c.find h with
      | none => hs
      | some e => ⟨t, h, e.id⟩ :: hs) := by
  apply hE.inPlace (g := fun a e ↦
    if a = h then { e with refcnt := signed 32 (e.refcnt + 1) } else e)
  · intro a e
    split <;> rfl
  · intro a
    rw [Cache.find_getSection]
    by_cases ha : a = h
    · subst ha; simp
    · simp [ha]
  · rfl
  · rfl
  · intro r hr
    split at hr
    · exact hE.found r hr
    · next e he =>
      rcases List.mem_cons.mp hr with rfl | hr
      · exact ⟨e, he, rfl⟩
      · exact hE.found r hr
  · intro a e he
    have hc := hE.count a e he
    by_cases ha : a = h
    · subst ha
      simp only [he, holders_cons, ↓reduceIte, hc]
      exact signed_signed_add 32 _ 1
    · simp only [ha, ↓reduceIte, hc]
      split
      · rfl
      · rw [holders_cons]
        simp [ha]

/-- Advising an eviction touches no count. -/
private theorem exact_advise {c : Cache H S} {hs : List (Hold T H)} (hE : Exact c hs) (h : H) :
    Exact (c.adviseEvict h) hs := by
  apply hE.inPlace (g := fun a e ↦ if a = h then { e with invalid := true } else e)
  · intro a e
    split <;> rfl
  · intro a
    rw [Cache.find_adviseEvict]
    by_cases ha : a = h
    · subst ha; simp
    · simp [ha]
  · rfl
  · rfl
  · exact hE.found
  · intro a e he
    rw [← hE.count a e he]
    split <;> rfl

/-- The second look at the count inside `evict(h)` makes sure that nobody holds the entry, if the
count has not wrapped around. -/
theorem exact_evict {c : Cache H S} {hs : List (Hold T H)} (hE : Exact c hs) {v : H}
    (hwrap : 2 ^ 32 ∣ holders hs v → holders hs v = 0) : Exact (c.evictHandle v).2 hs := by
  rcases c.evictHandle_cases v with ⟨hc, -⟩ | ⟨e, he, hr, hc⟩
  · rw [hc]
    exact hE
  · rw [hc]
    have hfind (a : H) : (c.cache.erase v).lookup a = if a = v then none else c.find a := by
      split
      · next ha => rw [ha]; exact AList.lookup_erase v c.cache
      · next ha => exact AList.lookup_erase_ne ha
    have hsub (a : H) (d : Stuff S) (hd : (c.cache.erase v).lookup a = some d) :
        a ≠ v ∧ c.find a = some d := by
      rw [hfind] at hd
      split at hd
      · cases hd
      · next ha => exact ⟨ha, hd⟩
    constructor
    case found =>
      intro r hr'
      obtain ⟨d, hd, hid⟩ := hE.found r hr'
      have hne : r.handle ≠ v := by
        intro hv
        -- a holder would keep the count of `v` above zero
        have hpos : 0 < holders hs v := by
          apply List.countP_pos_iff.mpr
          exact ⟨r, hr', by simp [hv]⟩
        have hcount := hE.count v e he
        rw [hr, eq_comm, signed_natCast_eq_zero] at hcount
        exact hpos.ne' (hwrap hcount)
      refine ⟨d, ?_, hid⟩
      change (c.cache.erase v).lookup r.handle = some d
      rw [hfind, if_neg hne]
      exact hd
    case count =>
      intro a d hd
      exact hE.count a d (hsub a d hd).2
    case live =>
      intro a d hd
      obtain ⟨hne, hcd⟩ := hsub a d hd
      simp only [List.mem_cons, not_or]
      exact ⟨fun hi ↦ hne (hE.apart a v d e hcd he hi), hE.live a d hcd⟩
    case apart =>
      intro a b d d' hd hd'
      exact hE.apart a b d d' (hsub a d hd).2 (hsub b d' hd').2
    case stored =>
      intro a d hd
      exact hE.stored a d (hsub a d hd).2
    case deleted =>
      intro i hi
      rcases List.mem_cons.mp hi with rfl | hi
      · exact hE.stored v e he
      · exact hE.deleted i hi

/-- A stored entry starts with the one reference of its `put`. -/
private theorem exact_insert {c : Cache H S} {hs : List (Hold T H)} (hE : Exact c hs) (t : T)
    (h : H) (x : S) (sz : Nat) :
    Exact (c.insertNew h x sz).2
      (if (c.insertNew h x sz).1 then ⟨t, h, c.stored⟩ :: hs else hs) := by
  rcases c.insertNew_cases h x sz with ⟨e, -, hc⟩ | ⟨hn, hc⟩
  · rw [hc]
    exact hE
  · rw [hc]
    let new : Stuff S := { s := x, refcnt := 1, invalid := false, sz := sz, id := c.stored }
    have hfind (a : H) : (c.cache.insert h new).lookup a = if a = h then some new else c.find a := by
      split
      · next ha => rw [ha]; exact AList.lookup_insert c.cache
      · next ha => exact AList.lookup_insert_ne ha
    have hcases (a : H) (d : Stuff S) (hd : (c.cache.insert h new).lookup a = some d) :
        (a = h ∧ d = new) ∨ (a ≠ h ∧ c.find a = some d) := lookup_insert_eq_some hd
    have hzero : holders hs h = 0 := by
      apply List.countP_eq_zero.mpr
      intro r hr hrh
      obtain ⟨d, hd, -⟩ := hE.found r hr
      rw [of_decide_eq_true hrh, hn] at hd
      cases hd
    simp only [↓reduceIte]
    constructor
    case found =>
      intro r hr
      change ∃ e, (c.cache.insert h new).lookup r.handle = some e ∧ e.id = r.id
      rcases List.mem_cons.mp hr with rfl | hr
      · exact ⟨new, by rw [hfind, if_pos rfl], rfl⟩
      · obtain ⟨d, hd, hid⟩ := hE.found r hr
        have hne : r.handle ≠ h := by
          intro hh
          rw [hh, hn] at hd
          cases hd
        exact ⟨d, by rw [hfind, if_neg hne, hd], hid⟩
    case count =>
      intro a d hd
      rw [holders_cons]
      rcases hcases a d hd with ⟨rfl, rfl⟩ | ⟨ha, hcd⟩
      · rw [hzero, if_pos rfl]
        rfl
      · rw [if_neg ha, hE.count a d hcd]
        rfl
    case live =>
      intro a d hd hdel
      rcases hcases a d hd with ⟨rfl, rfl⟩ | ⟨-, hcd⟩
      · exact absurd (hE.deleted _ hdel) (Nat.lt_irrefl _)
      · exact hE.live a d hcd hdel
    case apart =>
      intro a b d d' hd hd' hid
      rcases hcases a d hd with ⟨rfl, rfl⟩ | ⟨ha, hcd⟩
      · rcases hcases b d' hd' with ⟨rfl, rfl⟩ | ⟨-, hcd'⟩
        · rfl
        · exact absurd (hE.stored b d' hcd') (by rw [← hid]; exact Nat.lt_irrefl _)
      · rcases hcases b d' hd' with ⟨rfl, rfl⟩ | ⟨-, hcd'⟩
        · exact absurd (hE.stored a d hcd) (by rw [hid]; exact Nat.lt_irrefl _)
        · exact hE.apart a b d d' hcd hcd' hid
    case stored =>
      intro a d hd
      change d.id < c.stored + 1
      rcases hcases a d hd with ⟨rfl, rfl⟩ | ⟨-, hcd⟩
      · exact Nat.lt_succ_self _
      · exact Nat.lt_succ_of_lt (hE.stored a d hcd)
    case deleted =>
      intro i hi
      exact Nat.lt_succ_of_lt (hE.deleted i hi)

/-- A flush while nothing is held leaves exact counts: there is nothing to count. -/
private theorem exact_flush {c : Cache H S} (hE : Exact c ([] : List (Hold T H))) :
    Exact c.flush ([] : List (Hold T H)) := by
  apply exact_of_empty c.find_flush
  intro i hi
  rcases (c.mem_deleted_flush i).mp hi with ⟨h, e, he, rfl⟩ | hi
  · exact hE.stored h e he
  · exact hE.deleted i hi

variable [DecidableEq T]

/-- One reference less to the entry under `h`. -/
theorem holders_erase {hs : List (Hold T H)} {t : T} {h : H} {id : Nat}
    (hm : ⟨t, h, id⟩ ∈ hs) (a : H) :
    holders hs a = holders (hs.erase ⟨t, h, id⟩) a + if a = h then 1 else 0 := by
  rw [← holders_cons _ t h a id]
  exact (List.perm_cons_erase hm).countP_eq _

/-- `unget` counts the reference it takes back. -/
private theorem exact_unget {c : Cache H S} {hs : List (Hold T H)} (hE : Exact c hs) {t : T} {h : H}
    {id : Nat} (hm : ⟨t, h, id⟩ ∈ hs) :
    Exact (c.ungetSection h).2 (hs.erase ⟨t, h, id⟩) := by
  apply hE.inPlace (g := fun a e ↦
    if a = h then { e with refcnt := signed 32 (e.refcnt - 1) } else e)
  · intro a e
    split <;> rfl
  · intro a
    rw [Cache.find_ungetSection]
    by_cases ha : a = h
    · subst ha; simp
    · simp [ha]
  · rfl
  · rfl
  · intro r hr
    exact hE.found r (List.mem_of_mem_erase hr)
  · intro a e he
    have hc := hE.count a e he
    have hh := holders_erase hm a
    by_cases ha : a = h
    · simp only [ha, ↓reduceIte] at hc hh ⊢
      rw [hc, hh, Int.sub_eq_add_neg, signed_signed_add]
      exact congrArg (signed 32) (by omega)
    · simp only [ha, ↓reduceIte, Nat.add_zero] at hc hh ⊢
      rw [hc, hh]

variable [Fintype T]

/-- What a step can do to the entries and to the references held: nothing, or what one of
the sections that touch them does. -/
inductive RefStep (s : State T H S) : Act T H S → State T H S → Prop where
  | quiet {a s'} (hC : Spares s a) (hc : s'.shared.cache = s.shared.cache)
      (hs : s'.shared.stored = s.shared.stored) (hd : s'.shared.deleted = s.shared.deleted)
      (hh : s'.holds = s.holds) : RefStep s a s'
  | advise {s'} (t : T) (h : H) (hc : s'.shared = s.shared.adviseEvict h)
      (hh : s'.holds = s.holds) : RefStep s (.adviseEvict t h) s'
  | get {s'} (t : T) (h : H) (hc : s'.shared = (s.shared.getSection h).2)
      (hh : s'.holds = match s.shared.find h with
        | none => s.holds
        | some e => ⟨t, h, e.id⟩ :: s.holds) : RefStep s (.get t h) s'
  | unget {s'} (t : T) (h : H) (id : Nat) (hm : ⟨t, h, id⟩ ∈ s.holds)
      (hc : s'.shared = (s.shared.ungetSection h).2)
      (hh : s'.holds = s.holds.erase ⟨t, h, id⟩) : RefStep s (.unget t h id) s'
  | evict {s'} (t : T) (v : H) (hc : s'.shared = (s.shared.evictHandle v).2)
      (hh : s'.holds = s.holds) (hv : (s.pc t).victim = some v) : RefStep s (.go t) s'
  | insert {s'} (t : T) (h : H) (x : S) (sz : Nat) (hc : s'.shared = (s.shared.insertNew h x sz).2)
      (hh : s'.holds = if (s.shared.insertNew h x sz).1 then ⟨t, h, s.shared.stored⟩ :: s.holds
        else s.holds) (hC : Spares s (.go t)) : RefStep s (.go t) s'
  | flush {s'} (t : T) (hc : s'.shared = s.shared.flush) (hh : s'.holds = s.holds) :
      RefStep s (.flush t) s'

/-- Every step is of one of these kinds. -/
theorem step_refStep {s s' : State T H S} {a : Act T H S} (h : s.step a = some s') :
    RefStep s a s' := by
  have hspares {t : T} {p : Pc H S} (hp : s.pc t = p) (hv : p.victim = none) :
      Spares s (.go t) := by
    intro v hvictim
    rw [hp, hv] at hvictim
    cases hvictim
  cases State.step_moves h with
  | get => exact .get _ _ rfl rfl
  | unget _ hm => exact .unget _ _ _ hm rfl rfl
  | adviseEvict => exact .advise _ _ rfl rfl
  | flush => exact .flush _ rfl rfl
  | evict hp | ungetEvict hp => exact .evict _ _ rfl rfl (by rw [hp]; rfl)
  | insert hp => exact .insert _ _ _ _ rfl rfl (hspares hp rfl)
  | putRefused | put | pop | alloc => exact .quiet trivial rfl rfl rfl rfl
  | reserve hp | giveBack hp | popEmpty hp | giveUp hp | ungetRead hp | enq hp =>
    exact .quiet (hspares hp rfl) rfl rfl rfl rfl

/-- A step that spares held entries keeps counts exact. -/
theorem exact_step {s s' : State T H S} {a : Act T H S} (hE : Exact s.shared s.holds)
    (hC : Spares s a) (h : s.step a = some s') : Exact s'.shared s'.holds := by
  cases step_refStep h with
  | quiet _ hc hs hd hh =>
    rw [hh]
    apply hE.inPlace (g := fun _ e ↦ e) (fun _ _ ↦ rfl) _ hs hd hE.found hE.count
    intro a
    rw [Option.map_id', Cache.find, hc]
    rfl
  | advise t k hc hh => rw [hc, hh]; exact exact_advise hE k
  | get t k hc hh => rw [hc, hh]; exact exact_get hE t k
  | unget t k id hm hc hh => rw [hc, hh]; exact exact_unget hE hm
  | evict t v hc hh hv => rw [hc, hh]; exact exact_evict hE (hC v hv)
  | insert t k x sz hc hh => rw [hc, hh]; exact exact_insert hE t k x sz
  | flush t hc hh =>
    change s.holds = [] at hC
    rw [hC] at hE
    rw [hc, hh, hC]
    exact exact_flush hE

/-- A step that spares nothing has deleted what is held. -/
private theorem spares_of_pinned {s s' : State T H S} {a : Act T H S} (hE : Exact s.shared s.holds)
    (h : s.step a = some s') (hp : Pinned s') : Spares s a := by
  cases step_refStep h with
  | quiet hC | insert _ _ _ _ _ _ hC => exact hC
  | flush t hc hh =>
    change s.holds = []
    apply List.eq_nil_iff_forall_not_mem.mpr
    intro r hr
    obtain ⟨e, he, hid⟩ := hE.found r hr
    apply hp r (by rw [hh]; exact hr)
    rw [hc, Cache.mem_deleted_flush]
    exact .inl ⟨r.handle, e, he, hid⟩
  | evict t v hc hh hv =>
    intro v' hv' hwrap
    cases hv.symm.trans hv'
    by_contra hpos
    obtain ⟨r, hr, hrv⟩ := List.countP_pos_iff.mp (Nat.pos_of_ne_zero hpos)
    obtain ⟨e, he, hid⟩ := hE.found r hr
    rw [of_decide_eq_true hrv] at he
    have hzero : e.refcnt = 0 := (hE.count v e he).trans (signed_natCast_eq_zero.mpr hwrap)
    apply hp r (by rw [hh]; exact hr)
    rw [hc, ← hid]
    simp [Cache.evictHandle, he, hzero]
  | advise | get | unget => trivial

/-- Where counts are exact, a step keeps everything held alive precisely when it spares it. -/
private theorem pinned_step {s s' : State T H S} {a : Act T H S} (hE : Exact s.shared s.holds)
    (h : s.step a = some s') : Pinned s' ↔ Spares s a :=
  ⟨spares_of_pinned hE h, fun hC ↦ (exact_step hE hC h).pinned⟩

/-- For any number of threads and any interleaving: what `get` hands out or `put` stores stays
alive until the matching `unget`, in all states of the run, if and only if every flush of the
run comes when nothing is held and no `evict(h)` when the count of what is held has wrapped around
to zero. -/
theorem pinned_iff_spares (max : Nat) (as : List (Act T H S)) :
    (threads T H S max).AllStates Pinned (threads T H S max).init as ↔
      (threads T H S max).AllSteps Spares (threads T H S max).init as := by
  apply Machine.allStates_iff_allSteps (J := fun s ↦ Exact s.shared s.holds)
  · intro s a s' _ hE h
    exact pinned_step hE h
  · intro s a s' _ hE hC h
    exact exact_step hE hC h
  · exact (exact_new max).pinned
  · exact exact_new max

/-- Thread 0 stores an entry and keeps its reference; thread 1 flushes; the entry is gone. -/
theorem not_pinned_of_flush : ¬ ∀ (max : Nat) (as : List (Act (Fin 2) Nat Unit)),
    (threads (Fin 2) Nat Unit max).AllStates Pinned (threads (Fin 2) Nat Unit max).init as := by
  intro h
  have hrun : ∃ s, (threads (Fin 2) Nat Unit 10).run (threads (Fin 2) Nat Unit 10).init
      [.put 0 7 () 4, .go 0, .alloc 0 true, .go 0, .flush 1] = some s ∧ ¬ Pinned s :=
    ⟨_, rfl, by decide⟩
  obtain ⟨s, hs, hn⟩ := hrun
  exact hn (Machine.AllStates.last _ (h 10 _) hs)

end Filth.Cache
