import Filth.Cache.Accounting
import Filth.Cache.Counting

/-!
# What `put` admits

Operations on the cache one at a time, `src/Cache.hpp:84–219`. `put` tries to evict whatever is
queued until its entry fits, so it should store the entry if and only if that fits beside the
entries that have references. It does as long as no count goes below zero or wraps around: such an
entry is neither referred to nor evicted.
-/

namespace Filth.Cache

open Base

variable {T H S : Type} [DecidableEq H]

/-- Total size of the entries that have references. -/
def liveSize (c : Cache H S) : Nat := weight (fun e ↦ if 0 < e.refcnt then e.sz else 0) c.cache

/-- What `put` should store: an entry that is not there yet, and that fits beside those that have
references. -/
def Admissible (c : Cache H S) (h : H) (sz : Nat) : Prop :=
  c.find h = none ∧ sz ≤ c.max ∧ sz + c.liveSize ≤ c.max

/-- An operation starts when no other is under way, and `new` succeeds. -/
def OneAtATime (s : State T H S) : Act T H S → Prop
  | .get .. | .unget .. | .put .. | .adviseEvict .. | .flush _ => ∀ t, s.pc t = .idle
  | .alloc _ ok => ok = true
  | _ => True

instance [Fintype T] [DecidableEq S] (s : State T H S) : DecidablePred (OneAtATime s)
  | .get .. | .unget .. | .put .. | .adviseEvict .. | .flush _ =>
    inferInstanceAs (Decidable (∀ t, s.pc t = .idle))
  | .alloc _ ok => inferInstanceAs (Decidable (ok = true))
  | .pop .. | .go _ => .isTrue trivial

/-- If a reference is given back and there is an entry under the handle, that has references; and
if one is taken, the `int` is not at its maximum. -/
def FindsReferences (s : State T H S) : Act T H S → Prop
  | .unget _ h _ => ∀ e ∈ s.shared.find h, 0 < e.refcnt
  | .get _ h => ∀ e ∈ s.shared.find h, e.refcnt < 2 ^ 31 - 1
  | _ => True

instance (s : State T H S) : DecidablePred (FindsReferences s)
  | .unget _ h _ => inferInstanceAs (Decidable (∀ e ∈ s.shared.find h, 0 < e.refcnt))
  | .get _ h => inferInstanceAs (Decidable (∀ e ∈ s.shared.find h, e.refcnt < 2 ^ 31 - 1))
  | .put .. | .adviseEvict .. | .flush _ | .pop .. | .alloc .. | .go _ => .isTrue trivial

/-- A thread goes on with `put`. -/
def GoesOn (t : T) (a : Act T H S) : Prop :=
  a = .go t ∨ (∃ v, a = .pop t v) ∨ a = .alloc t true

/-- How far a `put` has come that was called in one state and has led to another. Whatever has
references stays; it does not take more steps than the bound and can always take the next one until
it returns; and when it returns the entry is stored if it was admissible, and else not. -/
structure PutMeets [Fintype T] [DecidableEq T] (s : State T H S) (t : T) (h : H) (x : S) (sz n : Nat)
    (s' : State T H S) : Prop where
  bounded : n ≤ 4 * s.shared.toevict.length + 3
  goesOn : s'.pc t ≠ .idle → ∃ a, GoesOn t a ∧ (s'.step a).isSome
  keeps : ∀ a e, s.shared.find a = some e → 0 < e.refcnt → s'.shared.find a = some e
  stores : s'.pc t = .idle → Admissible s.shared h sz →
    s'.holds = ⟨t, h, s.shared.stored⟩ :: s.holds ∧
      ∃ e, s'.shared.find h = some e ∧ e.s = x ∧ e.refcnt = 1
  refuses : s'.pc t = .idle → ¬ Admissible s.shared h sz → s'.holds = s.holds

/-- Between operations: a `put` meets what is expected of it. -/
def PutsMeet [Fintype T] [DecidableEq T] (s : State T H S) : Prop :=
  (∀ t, s.pc t = .idle) → ∀ (t : T) (h : H) (x : S) (sz : Nat) (as : List (Act T H S)) (s' : State T H S),
    (∀ a ∈ as, GoesOn t a) →
      (threads T H S s.shared.max).run s (.put t h x sz :: as) = some s' →
        PutMeets s t h x sz as.length s'

/-! ### One operation at a time -/

/-- What a `put` has found out before a section. -/
def Pc.Known (c : Cache H S) : Pc H S → Prop
  | .reserve h _ sz | .alloc h _ sz | .insert h _ sz => c.find h = none ∧ sz ≤ c.max
  | .giveBack h _ sz | .pop h _ sz | .evict h _ sz _ =>
    c.find h = none ∧ sz ≤ c.max ∧ c.max < c.size + sz
  | .giveUp _ => False
  | _ => True

/-- Nobody but the thread is inside of the cache. -/
def State.Alone (s : State T H S) (t : T) : Prop := ∀ u, u ≠ t → s.pc u = .idle

/-- What holds as long as operations are executed one at a time and counts stay in range. -/
structure Serial [Fintype T] (s : State T H S) : Prop where
  accounted : Accounted s
  fits : Fits s
  queued : Queued s
  counts : ∀ a e, s.shared.find a = some e → 0 ≤ e.refcnt ∧ e.refcnt < 2 ^ 31
  alone : ∀ t, s.pc t ≠ .idle → s.Alone t
  known : ∀ t, (s.pc t).Known s.shared

section Step

variable [Fintype T] [DecidableEq T] {s s' : State T H S} {a : Act T H S}

omit [DecidableEq H] [DecidableEq T] in
private theorem reserved_of_alone {t : T} (h : s.Alone t) : s.reserved = (s.pc t).reserved := by
  refine Finset.sum_eq_single t (fun u _ hu ↦ ?_) fun ht ↦ absurd (Finset.mem_univ t) ht
  rw [h u hu]
  rfl

/-- No count leaves its range in a step that gives back a reference only where there is one, and
takes none where there are too many. -/
theorem counts_step (hcounts : ∀ a e, s.shared.find a = some e → 0 ≤ e.refcnt ∧ e.refcnt < 2 ^ 31)
    (hfinds : FindsReferences s a) (h : s.step a = some s') (k : H) (e : Stuff S)
    (he : s'.shared.find k = some e) : 0 ≤ e.refcnt ∧ e.refcnt < 2 ^ 31 := by
  rcases find_of_step h he with ⟨d, hd, -, hcount⟩ | hfresh
  · obtain ⟨hlow, hhigh⟩ := hcounts k d hd
    rcases hcount with ⟨⟨t, rfl⟩, hcount⟩ | ⟨⟨t, id, rfl⟩, hcount⟩ | hcount
    · have hroom := hfinds d hd
      rw [hcount, signed_of_range (by decide) (by omega) (by omega)]
      omega
    · have hpos := hfinds d hd
      rw [hcount, signed_of_range (by decide) (by omega) (by omega)]
      omega
    · rw [hcount]
      exact ⟨hlow, hhigh⟩
  · rw [hfresh]
    decide

omit [Fintype T] [DecidableEq T] in
/-- So no `get` brings a count up to zero. -/
private theorem get_ne_zero
    (hcounts : ∀ a e, s.shared.find a = some e → 0 ≤ e.refcnt ∧ e.refcnt < 2 ^ 31)
    (hfinds : FindsReferences s a) (t : T) (k : H) (ha : a = .get t k) (e : Stuff S)
    (he : s.shared.find k = some e) : signed 32 (e.refcnt + 1) ≠ 0 := by
  subst ha
  have hroom := hfinds e he
  have hlow := (hcounts k e he).1
  rw [signed_of_range (by decide) (by omega) (by omega)]
  omega

/-- Whoever takes a step is alone. -/
theorem alone_thread (hs : Serial s) (ha : OneAtATime s a) (h : s.step a = some s') :
    s.Alone a.thread := by
  cases State.step_moves h with
  | get | unget | putRefused | put | adviseEvict | flush => exact fun u _ ↦ ha u
  | reserve hp | giveBack hp | popEmpty hp | pop hp | evict hp | alloc hp | giveUp hp | insert hp
  | ungetRead hp | ungetEvict hp | enq hp =>
    refine hs.alone _ fun hidle ↦ ?_
    cases hp.symm.trans hidle

/-- It is alone after the step as well. -/
private theorem alone_step (hs : Serial s) (ha : OneAtATime s a) (h : s.step a = some s') :
    s'.Alone a.thread := by
  intro u hu
  rw [State.pc_step_of_ne h hu]
  exact alone_thread hs ha h u hu

/-- One at a time, steps keep the books. -/
theorem harmless_of_serial (hmax : s.shared.max < 2 ^ 63) (hs : Serial s) (ha : OneAtATime s a)
    (h : s.step a = some s') : Harmless s a := by
  cases a with
  | flush t => exact State.reserved_of_idle ha
  | go t =>
    have halone := reserved_of_alone (alone_thread hs ha h)
    have hknown := hs.known t
    have hcur := hs.accounted.balance
    have hroom := hs.fits.room
    dsimp only [Act.thread] at halone
    unfold Harmless
    dsimp only
    cases hp : s.pc t with
    | reserve k x sz =>
      rw [hp] at halone hknown
      dsimp only [Pc.reserved] at halone
      have hsz : sz ≤ s.shared.max := hknown.2
      unfold sizeBound
      dsimp only
      omega
    | insert k x sz =>
      rw [hp] at hknown
      exact .inl hknown.1
    | _ => trivial
  | _ => trivial

/-- What the thread that takes a step knows afterwards. -/
private theorem known_step (hmax : s.shared.max < 2 ^ 63) (hs : Serial s) (ha : OneAtATime s a)
    (h : s.step a = some s') : (s'.pc a.thread).Known s'.shared := by
  have hself {t : T} {c : Cache H S} {p : Pc H S} : (s.move t c p).pc t = p :=
    Function.update_self _ _ _
  have hharmless := harmless_of_serial hmax hs ha h
  have halone := reserved_of_alone (alone_thread hs ha h)
  have hcur := hs.accounted.balance
  have hknown := hs.known a.thread
  cases State.step_moves h with
  | get hp | putRefused hp | adviseEvict hp | flush hp =>
    dsimp only [Act.thread, State.within]
    rw [hp]
    trivial
  | unget hp hm =>
    dsimp only [Act.thread]
    rw [hself]
    split <;> trivial
  | put hp hz hn =>
    dsimp only [Act.thread]
    rw [hself]
    exact ⟨hn, hz⟩
  | @reserve t k x sz hp =>
    dsimp only [Act.thread] at hknown halone ⊢
    rw [hp] at hknown halone
    rw [hself]
    obtain ⟨hn, hz⟩ := hknown
    split
    · exact ⟨hn, hz⟩
    · next hfull =>
      simp only [Harmless, hp] at hharmless
      have hadd := sizeAdd_of_lt hharmless
      have hover : ¬ sizeAdd s.shared.cur sz ≤ s.shared.max := by
        simpa [Cache.reserve] using hfull
      have hzero : s.reserved = 0 := halone
      refine ⟨hn, hz, ?_⟩
      change s.shared.max < s.shared.size + sz
      omega
  | giveBack hp | pop hp =>
    dsimp only [Act.thread] at hknown ⊢
    rw [hp] at hknown
    rw [hself]
    exact hknown
  | popEmpty hp | enq hp =>
    dsimp only [Act.thread]
    rw [hself]
    trivial
  | @evict t k x sz v hp hw =>
    dsimp only [Act.thread] at hknown ⊢
    rw [hp] at hknown
    rw [hself]
    obtain ⟨hn, hz, hfull⟩ := hknown
    change Pc.Known (s.shared.evictHandle v).2 _
    have hnone : (s.shared.evictHandle v).2.find k = none := by
      refine Option.eq_none_iff_forall_ne_some.mpr fun e he ↦ ?_
      cases hn.symm.trans (Cache.find_of_evictHandle he).1
    rcases s.shared.evictHandle_cases v with ⟨hsame, -⟩ | ⟨e, he, -, hgone⟩
    · rw [hsame]
      exact ⟨hn, hz, hfull⟩
    · rw [hgone] at hnone ⊢
      exact ⟨hnone, hz⟩
  | @alloc t k x sz ok hp =>
    dsimp only [Act.thread] at hknown ⊢
    rw [hp] at hknown
    have hok : ok = true := ha
    rw [hself, if_pos hok]
    exact hknown
  | giveUp hp =>
    dsimp only [Act.thread]
    rw [hself]
    trivial
  | insert hp hw =>
    dsimp only [Act.thread]
    change Pc.Known _ (Function.update s.pc _ .idle _)
    rw [Function.update_self]
    trivial
  | ungetRead hp | ungetEvict hp =>
    dsimp only [Act.thread]
    rw [hself]
    split <;> trivial

/-- All of it is kept. -/
theorem serial_step (hmax : s.shared.max < 2 ^ 63) (hs : Serial s) (ha : OneAtATime s a)
    (hfinds : FindsReferences s a) (h : s.step a = some s') : Serial s' := by
  have hharmless := harmless_of_serial hmax hs ha h
  obtain ⟨haccounted, hfits⟩ := accounted_step hs.accounted hs.fits h
  have halone := alone_step hs ha h
  have hthread : ∀ t, s'.pc t ≠ .idle → t = a.thread := fun t ht ↦
    by_contra fun hne ↦ ht (halone t hne)
  refine ⟨haccounted.mpr hharmless, hfits hharmless,
    queued_step (get_ne_zero hs.counts hfinds) hs.queued h, counts_step hs.counts hfinds h,
    fun t ht ↦ ?_, fun t ↦ ?_⟩
  · rw [hthread t ht]
    exact halone
  · by_cases ht : t = a.thread
    · rw [ht]
      exact known_step hmax hs ha h
    · rw [halone t ht]
      trivial

end Step

/-! ### From `put_tryagain` to the return -/

/-- The thread is executing a `put` with these arguments. -/
def Pc.Puts (p : Pc H S) (h : H) (x : S) (sz : Nat) : Prop :=
  match p with
  | .reserve k y n | .giveBack k y n | .pop k y n | .evict k y n _ | .alloc k y n
  | .insert k y n => k = h ∧ y = x ∧ n = sz
  | _ => False

/-- At most so many sections are left, apart from those for what is queued. -/
def Pc.rank : Pc H S → Nat
  | .evict .. => 4
  | .reserve .. => 3
  | .giveBack .. | .alloc .. => 2
  | .pop .. | .insert .. => 1
  | _ => 0

/-- At most so many sections are left of a `put`. -/
def left (t : T) (s : State T H S) : Nat := 4 * s.shared.toevict.length + (s.pc t).rank

/-- A `put` is under way. -/
structure Putting [Fintype T] (s₀ : State T H S) (t : T) (h : H) (x : S) (sz : Nat)
    (s : State T H S) : Prop where
  serial : Serial s
  puts : (s.pc t).Puts h x sz
  absent : s₀.shared.find h = none
  small : sz ≤ s₀.shared.max
  holds : s.holds = s₀.holds
  stored : s.shared.stored = s₀.shared.stored
  max : s.shared.max = s₀.shared.max
  keeps : ∀ a e, s₀.shared.find a = some e → 0 < e.refcnt → s.shared.find a = some e
  live : s.shared.liveSize = s₀.shared.liveSize

/-- A `put` has returned. -/
structure Returned (s₀ : State T H S) (t : T) (h : H) (x : S) (sz : Nat) (s : State T H S) :
    Prop where
  idle : s.pc t = .idle
  keeps : ∀ a e, s₀.shared.find a = some e → 0 < e.refcnt → s.shared.find a = some e
  stores : Admissible s₀.shared h sz → s.holds = ⟨t, h, s₀.shared.stored⟩ :: s₀.holds ∧
    ∃ e, s.shared.find h = some e ∧ e.s = x ∧ e.refcnt = 1
  refuses : ¬ Admissible s₀.shared h sz → s.holds = s₀.holds

omit [DecidableEq H] in
private theorem liveSize_le_size (c : Cache H S) : c.liveSize ≤ c.size := by
  refine List.sum_le_sum fun e _ ↦ ?_
  dsimp only
  split
  · exact le_rfl
  · exact Nat.zero_le _

private theorem liveSize_eq_size {c : Cache H S} (h : ∀ a e, c.find a = some e → 0 < e.refcnt) :
    c.liveSize = c.size := by
  refine congrArg List.sum (List.map_congr_left fun e he ↦ ?_)
  exact if_pos (h e.1 e.2 (AList.mem_lookup_iff.mpr he))

section Put

variable [Fintype T] [DecidableEq T] {s₀ s s' : State T H S} {t : T} {h : H} {x : S} {sz : Nat}
  {a : Act T H S}

omit [DecidableEq T] in
/-- A section that leaves the entries and the references alone. -/
theorem Putting.still (hp : Putting s₀ t h x sz s) (hs : Serial s') (hputs : (s'.pc t).Puts h x sz)
    (hcache : s'.shared.cache = s.shared.cache) (hstored : s'.shared.stored = s.shared.stored)
    (hmax : s'.shared.max = s.shared.max) (hholds : s'.holds = s.holds) :
    Putting s₀ t h x sz s' := by
  refine ⟨hs, hputs, hp.absent, hp.small, hholds.trans hp.holds, hstored.trans hp.stored,
    hmax.trans hp.max, fun a e he hpos ↦ ?_, ?_⟩
  · rw [Cache.find, hcache]
    exact hp.keeps a e he hpos
  · rw [liveSize, hcache]
    exact hp.live

omit [DecidableEq T] in
/-- What is evicted has no references. -/
private theorem Putting.evicts (hp : Putting s₀ t h x sz s) (hs : Serial s') {v : H}
    (hputs : (s'.pc t).Puts h x sz) (hshared : s'.shared = (s.shared.evictHandle v).2)
    (hholds : s'.holds = s.holds) : Putting s₀ t h x sz s' := by
  rcases s.shared.evictHandle_cases v with ⟨hsame, -⟩ | ⟨d, hd, hz, hgone⟩
  · have hshared' : s'.shared = s.shared := by rw [hshared, hsame]
    exact hp.still hs hputs (by rw [hshared']) (by rw [hshared']) (by rw [hshared']) hholds
  · rw [hgone] at hshared
    refine ⟨hs, hputs, hp.absent, hp.small, hholds.trans hp.holds, ?_, ?_, fun a e he hpos ↦ ?_, ?_⟩
    · rw [hshared]
      exact hp.stored
    · rw [hshared]
      exact hp.max
    · have he' := hp.keeps a e he hpos
      have hne : a ≠ v := by
        rintro rfl
        cases hd.symm.trans he'
        omega
      rw [hshared]
      exact (AList.lookup_erase_ne hne).trans he'
    · have hw : (if 0 < d.refcnt then d.sz else 0) + liveSize s'.shared = liveSize s.shared := by
        rw [hshared]
        exact weight_erase (fun e ↦ if 0 < e.refcnt then e.sz else 0) hd
      rw [if_neg (by omega), Nat.zero_add] at hw
      exact hw.trans hp.live

/-- When nothing is queued, all that is left has references, and there is no room beside it. -/
private theorem Putting.gives_up (hp : Putting s₀ t h x sz s) (hpc : s.pc t = .pop h x sz)
    (hempty : s.shared.toevict = []) : Returned s₀ t h x sz (s.move t s.shared .idle) := by
  have halone := hp.serial.alone t (by rw [hpc]; nofun)
  have hlive : ∀ a e, s.shared.find a = some e → 0 < e.refcnt := by
    intro a e he
    have hnonneg := (hp.serial.counts a e he).1
    have hne : e.refcnt ≠ 0 := by
      intro hzero
      rcases hp.serial.queued a e he hzero with hin | ⟨u, hu⟩
      · rw [hempty] at hin
        cases hin
      · by_cases hut : u = t
        · rw [hut, hpc] at hu
          exact hu
        · rw [halone u hut] at hu
          exact hu
    omega
  have hfull := hp.serial.known t
  rw [hpc] at hfull
  have hsize := liveSize_eq_size hlive
  have hnot : ¬ Admissible s₀.shared h sz := by
    rintro ⟨-, -, hroom⟩
    have hmax := hp.max
    have hsame := hp.live
    have hover : s.shared.max < s.shared.size + sz := hfull.2.2
    omega
  exact ⟨Function.update_self _ _ _, hp.keeps, fun h ↦ absurd h hnot, fun _ ↦ hp.holds⟩

/-- When there is room, the entry is stored. -/
private theorem Putting.inserts (hp : Putting s₀ t h x sz s) (hpc : s.pc t = .insert h x sz) :
    Returned s₀ t h x sz { s.move t (s.shared.insertNew h x sz).2 .idle with
      holds := if (s.shared.insertNew h x sz).1 then ⟨t, h, s.shared.stored⟩ :: s.holds
        else s.holds } := by
  have hroom := hp.serial.fits.room
  have hadmitted : (s.pc t).admitted ≤ s.admitted :=
    Finset.single_le_sum (f := fun t ↦ (s.pc t).admitted) (fun _ _ ↦ Nat.zero_le _)
      (Finset.mem_univ t)
  have hknown := hp.serial.known t
  rw [hpc] at hknown hadmitted
  have hadmissible : Admissible s₀.shared h sz := by
    refine ⟨hp.absent, hp.small, ?_⟩
    have hle := liveSize_le_size s.shared
    have hmax := hp.max
    have hsame := hp.live
    have hsz : sz ≤ s.admitted := hadmitted
    omega
  have hnew := (s.shared.insertNew_cases h x sz).resolve_left fun ⟨e, he, _⟩ ↦ by
    cases hknown.1.symm.trans he
  rw [hnew.2]
  refine ⟨Function.update_self _ _ _, fun a e he hpos ↦ ?_, fun _ ↦ ⟨?_, ?_⟩, absurd hadmissible⟩
  · have he' := hp.keeps a e he hpos
    have hne : a ≠ h := by
      rintro rfl
      cases hknown.1.symm.trans he'
    exact (AList.lookup_insert_ne hne).trans he'
  · rw [← hp.stored, ← hp.holds]
    rfl
  · exact ⟨_, AList.lookup_insert _, rfl, rfl⟩

/-- A returned `put` does not go on. -/
private theorem Returned.not_step (hr : Returned s₀ t h x sz s) (ha : GoesOn t a) :
    s.step a = none := by
  have hidle := hr.idle
  rcases ha with rfl | ⟨v, rfl⟩ | rfl
  · simp [State.step, State.goOn, hidle]
  · simp [State.step, hidle]
  · simp [State.step, hidle]

/-- Another section of a `put`: it gets closer to its end, or returns. -/
theorem Putting.step (hmax : s.shared.max < 2 ^ 63) (hp : Putting s₀ t h x sz s)
    (ha : GoesOn t a) (hstep : s.step a = some s') :
    (Putting s₀ t h x sz s' ∨ Returned s₀ t h x sz s') ∧ left t s' < left t s := by
  have hone : OneAtATime s a := by
    rcases ha with rfl | ⟨v, rfl⟩ | rfl
    · trivial
    · trivial
    · rfl
  have hfinds : FindsReferences s a := by
    rcases ha with rfl | ⟨v, rfl⟩ | rfl <;> trivial
  have hserial := serial_step hmax hp.serial hone hfinds hstep
  have hself {c : Cache H S} {p : Pc H S} : (s.move t c p).pc t = p := Function.update_self _ _ _
  have hleft {p : Pc H S} (hpc : s.pc t = p) :
      left t s = 4 * s.shared.toevict.length + p.rank := by rw [left, hpc]
  have hputs := hp.puts
  have hthread : a.thread = t := by
    rcases ha with rfl | ⟨v, rfl⟩ | rfl <;> rfl
  cases State.step_moves hstep with
  | get | unget | putRefused | put | adviseEvict | flush =>
    rcases ha with h | ⟨v, h⟩ | h <;> cases h
  | @reserve u k y n hpc =>
    obtain rfl : u = t := hthread
    rw [hpc] at hputs
    obtain ⟨rfl, rfl, rfl⟩ := hputs
    refine ⟨.inl (hp.still hserial ?_ rfl rfl rfl rfl), ?_⟩
    · rw [hself]
      split <;> exact ⟨rfl, rfl, rfl⟩
    · rw [hleft hpc, left, hself]
      change 4 * s.shared.toevict.length + _ < _
      split <;> simp [Pc.rank]
  | @giveBack u k y n hpc =>
    obtain rfl : u = t := hthread
    rw [hpc] at hputs
    refine ⟨.inl (hp.still hserial ?_ rfl rfl rfl rfl), ?_⟩
    · rw [hself]
      exact hputs
    · rw [hleft hpc, left, hself]
      change 4 * s.shared.toevict.length + _ < _
      simp [Pc.rank]
  | @popEmpty u k y n hpc hempty =>
    obtain rfl : u = t := hthread
    rw [hpc] at hputs
    obtain ⟨rfl, rfl, rfl⟩ := hputs
    refine ⟨.inr (hp.gives_up hpc hempty), ?_⟩
    rw [hleft hpc, left, hself]
    change 4 * s.shared.toevict.length + _ < _
    simp [Pc.rank]
  | @pop u k y n v hpc hv =>
    obtain rfl : u = t := hthread
    rw [hpc] at hputs
    refine ⟨.inl (hp.still hserial ?_ rfl rfl rfl rfl), ?_⟩
    · rw [hself]
      exact hputs
    · have hlen := List.length_erase_of_mem hv
      have hpos := List.length_pos_of_mem hv
      rw [hleft hpc, left, hself]
      change 4 * (s.shared.toevict.erase v).length + _ < _
      simp only [Pc.rank]
      omega
  | @evict u k y n v hpc hw =>
    obtain rfl : u = t := hthread
    rw [hpc] at hputs
    refine ⟨.inl (hp.evicts hserial ?_ rfl rfl), ?_⟩
    · rw [hself]
      split <;> exact hputs
    · rw [hleft hpc, left, hself]
      change 4 * (s.shared.evictHandle v).2.toevict.length + _ < _
      rw [Cache.toevict_evictHandle]
      split <;> simp [Pc.rank]
  | @alloc u k y n ok hpc =>
    obtain rfl : u = t := hthread
    rw [hpc] at hputs
    have hok : ok = true := hone
    refine ⟨.inl (hp.still hserial ?_ rfl rfl rfl rfl), ?_⟩
    · rw [hself, if_pos hok]
      exact hputs
    · rw [hleft hpc, left, hself, if_pos hok]
      change 4 * s.shared.toevict.length + _ < _
      simp [Pc.rank]
  | @giveUp u n hpc =>
    obtain rfl : u = t := hthread
    rw [hpc] at hputs
    exact hputs.elim
  | @insert u k y n hpc hw =>
    obtain rfl : u = t := hthread
    rw [hpc] at hputs
    obtain ⟨rfl, rfl, rfl⟩ := hputs
    refine ⟨.inr (hp.inserts hpc), ?_⟩
    rw [hleft hpc]
    change 4 * (s.shared.insertNew k y n).2.toevict.length +
      (Function.update s.pc u .idle u).rank < _
    rw [Cache.toevict_insertNew, Function.update_self]
    simp [Pc.rank]
  | @ungetRead u k hpc | @ungetEvict u k hpc | @enq u k hpc =>
    obtain rfl : u = t := hthread
    rw [hpc] at hputs
    exact hputs.elim

/-- A `put` under way can take its next step. -/
theorem Putting.goesOn (hp : Putting s₀ t h x sz s) : ∃ a, GoesOn t a ∧ (s.step a).isSome := by
  have hputs := hp.puts
  have hreader (hnot : (s.pc t).reading = false) (hbusy : s.pc t ≠ .idle) : s.NoReader := by
    intro u
    by_cases hu : u = t
    · rw [hu]
      exact hnot
    · rw [hp.serial.alone t hbusy u hu]
      rfl
  cases hpc : s.pc t with
  | reserve k y n | giveBack k y n => exact ⟨.go t, .inl rfl, by simp [State.step, State.goOn, hpc]⟩
  | pop k y n =>
    cases hq : s.shared.toevict with
    | nil => exact ⟨.go t, .inl rfl, by simp [State.step, State.goOn, hpc, hq]⟩
    | cons v vs => exact ⟨.pop t v, .inr (.inl ⟨v, rfl⟩), by simp [State.step, hpc, hq]⟩
  | evict k y n v =>
    have hnone := hreader (by rw [hpc]; rfl) (by simp [hpc])
    exact ⟨.go t, .inl rfl, by simp [State.step, State.goOn, hpc, hnone]⟩
  | insert k y n =>
    have hnone := hreader (by rw [hpc]; rfl) (by simp [hpc])
    exact ⟨.go t, .inl rfl, by simp [State.step, State.goOn, hpc, hnone]⟩
  | alloc k y n => exact ⟨.alloc t true, .inr (.inr rfl), by simp [State.step, hpc]⟩
  | idle | giveUp | ungetRead | ungetEvict | enq =>
    rw [hpc] at hputs
    exact hputs.elim

/-- Between operations, `put` does what is expected. -/
private theorem putsMeet_of_serial (hmax : s.shared.max < 2 ^ 63) (hs : Serial s) : PutsMeet s := by
  intro hidle t h x sz as s' has hrun
  obtain ⟨s₁, hput, hrun⟩ := Option.bind_eq_some_iff.mp hrun
  replace hput : s.step (.put t h x sz) = some s₁ := hput
  have hstart : (Putting s t h x sz s₁ ∨ Returned s t h x sz s₁) ∧
      left t s₁ ≤ 4 * s.shared.toevict.length + 3 := by
    have hserial := serial_step hmax hs (a := .put t h x sz) hidle trivial hput
    cases State.step_moves hput with
    | putRefused hpc hr =>
      refine ⟨.inr ⟨hpc, fun a e he _ ↦ he, fun hadm ↦ absurd hr ?_, fun _ ↦ rfl⟩, ?_⟩
      · rintro (hbig | hfound)
        · exact absurd hadm.2.1 (Nat.not_le_of_lt hbig)
        · rw [hadm.1] at hfound
          cases hfound
      · rw [left, hpc]
        exact Nat.add_le_add_left (Nat.zero_le 3) _
    | put hpc hz hn =>
      have hself : (s.move t s.shared (.reserve h x sz)).pc t = .reserve h x sz :=
        Function.update_self _ _ _
      refine ⟨.inl ⟨hserial, ?_, hn, hz, rfl, rfl, rfl, fun a e he _ ↦ he, rfl⟩, ?_⟩
      · rw [hself]
        exact ⟨rfl, rfl, rfl⟩
      · rw [left, hself]
        exact le_rfl
  have hstep : ∀ s₂ a s₃, Putting s t h x sz s₂ ∨ Returned s t h x sz s₂ → GoesOn t a →
      (threads T H S s.shared.max).step s₂ a = some s₃ →
        (Putting s t h x sz s₃ ∨ Returned s t h x sz s₃) ∧ left t s₃ < left t s₂ := by
    rintro s₂ a s₃ (hputting | hreturned) ha hstep
    · exact hputting.step (hputting.max ▸ hmax) ha hstep
    · cases (hreturned.not_step ha).symm.trans hstep
  obtain ⟨hend, hlen⟩ := Machine.keeps_of_run _ hstep hstart.1 has hrun
  have hbound : as.length ≤ 4 * s.shared.toevict.length + 3 := by omega
  rcases hend with hputting | hreturned
  · have hbusy : s'.pc t ≠ .idle := by
      intro hidle'
      have hputs := hputting.puts
      rw [hidle'] at hputs
      exact hputs
    exact ⟨hbound, fun _ ↦ hputting.goesOn, hputting.keeps, fun h ↦ absurd h hbusy,
      fun h ↦ absurd h hbusy⟩
  · exact ⟨hbound, fun h ↦ absurd hreturned.idle h, hreturned.keeps, fun _ ↦ hreturned.stores,
      fun _ ↦ hreturned.refuses⟩

end Put

/-- A new cache. -/
private theorem serial_init [Fintype T] [DecidableEq T] (max : Nat) :
    Serial (threads T H S max).init := by
  refine ⟨(fits_init max).accounted ?_, fits_init max, attended_new _ max, fun a e he ↦ ?_,
    fun t ht ↦ absurd rfl ht, fun t ↦ trivial⟩
  · rw [State.reserved_of_idle (fun _ ↦ rfl)]
    rfl
  · change (Cache.new max : Cache H S).find a = some e at he
    rw [Cache.find_new] at he
    cases he

/-- For any number of threads and any order of operations that are executed one at a time: as long
as no reference is given back to an entry without references, and none taken of one whose `int` is
at its maximum, `put` returns, and stores its entry if and only if that fits beside the entries that
have references, which it leaves alone. -/
theorem putsMeet_of_findsReferences [Fintype T] [DecidableEq T] (max : Nat) (hmax : max < 2 ^ 63)
    (as : List (Act T H S))
    (h : (threads T H S max).AllSteps (fun s a ↦ OneAtATime s a ∧ FindsReferences s a)
      (threads T H S max).init as) :
    (threads T H S max).AllStates PutsMeet (threads T H S max).init as := by
  have hserial : (threads T H S max).AllStates (fun s ↦ Serial s ∧ s.shared.max = max)
      (threads T H S max).init as := by
    refine h.allStates _ (fun s a s' hs ha hstep ↦ ?_) ⟨serial_init max, rfl⟩
    exact ⟨serial_step (hs.2 ▸ hmax) hs.1 ha.1 ha.2 hstep, (step_max hstep).trans hs.2⟩
  exact hserial.imp _ fun s hs ↦ putsMeet_of_serial (hs.2 ▸ hmax) hs.1

/-- An entry is stored, given back, evicted for another one, and that is given back as well. -/
theorem putsMeet_of_findsReferences_twice :
    (threads (Fin 2) Nat Unit 10).AllStates PutsMeet (threads (Fin 2) Nat Unit 10).init
      [.put 0 7 () 4, .go 0, .alloc 0 true, .go 0, .unget 0 7 0, .go 0, .go 0, .put 1 8 () 8, .go 1,
        .go 1, .pop 1 7, .go 1, .go 1, .alloc 1 true, .go 1, .unget 1 8 1, .go 1, .go 1] :=
  putsMeet_of_findsReferences 10 (by decide) _ (by decide)

/-- Thread 0 stores an entry; the cache is flushed; thread 1 stores another one under the same
handle, and both give their references back. The count is below zero, nothing has references and
nothing is evicted for an entry that would fit. -/
theorem not_putsMeet_of_flush : ¬ ∀ (max : Nat), max < 2 ^ 63 →
    ∀ as : List (Act (Fin 2) Nat Unit),
      (threads (Fin 2) Nat Unit max).AllSteps OneAtATime (threads (Fin 2) Nat Unit max).init as →
        (threads (Fin 2) Nat Unit max).AllStates PutsMeet (threads (Fin 2) Nat Unit max).init as := by
  intro h
  let as : List (Act (Fin 2) Nat Unit) := [.put 0 7 () 4, .go 0, .alloc 0 true, .go 0, .flush 1,
    .put 1 7 () 8, .go 1, .alloc 1 true, .go 1, .unget 0 7 0, .go 0, .go 0, .unget 1 7 1]
  obtain ⟨s, hrun, hidle, hmax, hadm, hholds, s', hput, hidle', hholds'⟩ :
      ∃ s, (threads (Fin 2) Nat Unit 10).run (threads (Fin 2) Nat Unit 10).init as = some s ∧
        (∀ t, s.pc t = .idle) ∧ s.shared.max = 10 ∧ Admissible s.shared 8 4 ∧ s.holds = [] ∧
          ∃ s', (threads (Fin 2) Nat Unit 10).run s
              [.put 0 8 () 4, .go 0, .go 0, .pop 0 7, .go 0, .go 0] = some s' ∧
            s'.pc 0 = .idle ∧ s'.holds = [] :=
    ⟨_, rfl, by decide, rfl, ⟨by decide, by decide, by decide⟩, rfl, _, rfl, by decide, rfl⟩
  have hlast := Machine.AllStates.last _ (h 10 (by decide) as (by decide)) hrun
  have hmeets := hlast hidle 0 8 () 4 [.go 0, .go 0, .pop 0 7, .go 0, .go 0] s'
    (by simp [GoesOn]) (by rw [hmax]; exact hput)
  have hstored := (hmeets.stores hidle' hadm).1
  rw [hholds', hholds] at hstored
  cases hstored

end Filth.Cache
