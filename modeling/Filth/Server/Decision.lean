import Filth.Server.Directives
import Filth.Server.Walk

/-!
# The decision about a cached entry

`cache_get`, `src/HTTP_2616_Server_Work.cpp:236–331`, at an instant: whether an entry will do is a
function of the entry, the time, the outcome of validation and the directives of the request. An
entry that no condition speaks about will do.
-/

namespace Filth

open Base WorkM

/-- A clock that shows `now` throughout, and calls that leave entries and files alone. -/
structure World.Still {ω Ref : Type} (W : World ω Ref) (now : Int) : Prop where
  time (w) : (W.time w).1 = now
  load_time (r w) : W.load r (W.time w).2 = W.load r w
  load_mtime (path r w) : W.load r (W.mtime path w).2 = W.load r w
  mtime_time (path w) : (W.mtime path (W.time w).2).1 = (W.mtime path w).1
  mtime_mtime (path w) : (W.mtime path (W.mtime path w).2).1 = (W.mtime path w).1

/-- What `HTTP_Origin_Server::validate` says of an entry, by the time of the last modification;
`src/HTTP_Origin_Server.cpp:21–27`. -/
def CacheEntry.validAt (e : CacheEntry) (mtime : Option Int) : Bool :=
  match mtime with
  | some t => t ≤ e.lastModified
  | none => false

/-- The age up to which `max-age` accepts an entry; `src/HTTP_2616_Server_Work.cpp:279–281`. -/
def CacheEntry.lesser (e : CacheEntry) (indeterminate : Int) (cc : CacheControl) : Int :=
  if e.useMaxAge && decide (e.maxAgeValue < indeterminate) then e.maxAgeValue else cc.maxAge

/-- The entry will do; `src/HTTP_2616_Server_Work.cpp:251–311`. What an age exceeds the lifetime by,
and the sum with `min-fresh`, are values of a `time_t`. -/
def CacheEntry.suits (e : CacheEntry) (now indeterminate : Int) (valid : Bool)
    (cc : CacheControl) : Bool :=
  if (e.responseIsFresh now now || valid) && !cc.isset .useMinFresh && !cc.isset .useMaxAge then
    true
  else if cc.isset .useMinFresh then
    signed 64 (e.currentAge now now + cc.minFresh) ≤ e.freshnessLifetime
  else if cc.isset .useMaxAge then
    if e.currentAge now now ≤ e.lesser indeterminate cc then
      if cc.isset .useMaxStale then
        signed 64 (e.currentAge now now - e.freshnessLifetime) ≤ cc.maxStale
      else true
    else false
  else if cc.isset .useMaxStale then
    signed 64 (e.currentAge now now - e.freshnessLifetime) ≤ cc.maxStale
  else true

variable {ω Ref α : Type} {W : World ω Ref} {now : Int}

/-- The scene when an entry is considered: the entry, what `stat` says of its file, and the
directives of the request. -/
def Considered (W : World ω Ref) (path : Str) (r : Ref) (e : CacheEntry) (mtime : Option Int)
    (cc : CacheControl) (s : Scene ω Ref) : Prop :=
  W.load r s.world = e ∧ (W.mtime path s.world).1 = mtime ∧ s.client.clCacheControl = cc

section Considered

variable {path : Str} {r : Ref} {e : CacheEntry} {mtime : Option Int} {cc : CacheControl}

private theorem yields_load (g : CacheEntry → α) :
    (load W r g).Yields (Considered W path r e mtime cc) (g e) :=
  .gets fun _ h ↦ by rw [h.1]

private theorem yields_asks (g : CacheControl → α) :
    (asks fun w ↦ g w.clCacheControl).Yields (Considered W path r e mtime cc) (g cc) :=
  .gets fun _ h ↦ congrArg g h.2.2

private theorem yields_isset (o : CacheOpt) :
    (isset o).Yields (Considered W path r e mtime cc) (cc.isset o) :=
  yields_asks fun cc ↦ cc.isset o

variable (hW : W.Still now)
include hW

private theorem yields_time : (call W.time).Yields (Considered W path r e mtime cc) now := by
  refine .modifyGet fun s h ↦ ⟨hW.time _, ?_, ?_, h.2.2⟩
  · exact (hW.load_time r s.world).trans h.1
  · exact (hW.mtime_time path s.world).trans h.2.1

private theorem yields_currentAge :
    (currentAge W r).Yields (Considered W path r e mtime cc) (e.currentAge now now) :=
  .bind (yields_time hW) (.bind (yields_time hW) (yields_load _))

private theorem yields_responseIsFresh :
    (responseIsFresh W r).Yields (Considered W path r e mtime cc) (e.responseIsFresh now now) :=
  .bind (yields_currentAge hW) (yields_load fun e ↦ decide (_ < e.freshnessLifetime))

private theorem yields_validate :
    (validate W path r).Yields (Considered W path r e mtime cc) (e.validAt mtime) := by
  have hcall : (call (W.mtime path)).Yields (Considered W path r e mtime cc) mtime := by
    refine .modifyGet fun s h ↦ ⟨h.2.1, ?_, ?_, h.2.2⟩
    · exact (hW.load_mtime path r s.world).trans h.1
    · exact (hW.mtime_mtime path s.world).trans h.2.1
  apply Eff.Yields.bind hcall
  cases mtime with
  | none => exact .pure false
  | some t => exact yields_load fun e ↦ decide (t ≤ e.lastModified)

private theorem yields_freshOrValid (fresh : Bool) : (freshOrValid W path r fresh).Yields
    (Considered W path r e mtime cc) (fresh || e.validAt mtime) := by
  cases fresh with
  | true => exact .pure true
  | false => exact yields_validate hW

private theorem yields_withinMaxStale : (withinMaxStale W r).Yields (Considered W path r e mtime cc)
    (decide (signed 64 (e.currentAge now now - e.freshnessLifetime) ≤ cc.maxStale)) :=
  .bind (yields_currentAge hW) (.bind (yields_load _)
    (yields_asks fun cc ↦ decide (_ ≤ cc.maxStale)))

/-- The decision of the source is `suits`. -/
private theorem yields_acceptable :
    (acceptable W path r (e.responseIsFresh now now)).Yields (Considered W path r e mtime cc)
      (e.suits now W.indeterminate (e.validAt mtime) cc) := by
  refine .bind (yields_freshOrValid hW _) ?_
  refine .bind (yields_isset .useMinFresh) (.bind (yields_isset .useMaxAge) ?_)
  refine .ite (fun _ ↦ .pure true) fun _ ↦ .bind (yields_isset .useMinFresh) ?_
  refine .ite (fun _ ↦ ?_) fun _ ↦ .bind (yields_isset .useMaxAge) ?_
  · exact .bind (yields_load _) (.bind (yields_currentAge hW)
      (yields_asks fun cc ↦ decide (signed 64 (_ + cc.minFresh) ≤ _)))
  refine .ite (fun _ ↦ ?_) fun _ ↦ .bind (yields_isset .useMaxStale) ?_
  · refine .bind (yields_load _) (.bind (yields_load _) ?_)
    refine .bind (yields_asks (e.lesser W.indeterminate)) (.bind (yields_currentAge hW) ?_)
    refine .ite (fun _ ↦ .bind (yields_isset .useMaxStale) ?_) fun _ ↦ .pure false
    exact .ite (fun _ ↦ yields_withinMaxStale hW) fun _ ↦ .pure true
  · exact .ite (fun _ ↦ yields_withinMaxStale hW) fun _ ↦ .pure true

end Considered

/-- An entry that was accepted is handed out. -/
private theorem acceptEntry_ok (W : World ω Ref) (path : Str) (r : Ref) (fresh : Bool)
    (s : Scene ω Ref) : ∃ s', acceptEntry W path r fresh s = (.ok (), s') := by
  cases fresh <;> exact ⟨_, rfl⟩

/-- What comes of an entry that was found is decided by `suits`. -/
private theorem considerEntry_ok (hW : W.Still now) (path : Str) (r : Ref) (s : Scene ω Ref) :
    (considerEntry W path r s).1 = .ok
      (if (W.load r s.world).suits now W.indeterminate
        ((W.load r s.world).validAt (W.mtime path s.world).1) s.client.clCacheControl
      then some r else none) := by
  have hs : Considered W path r (W.load r s.world) (W.mtime path s.world).1
      s.client.clCacheControl { s with c := some r } := ⟨rfl, rfl, rfl⟩
  rw [considerEntry, setC_bind]
  obtain ⟨s₁, h₁, hs₁⟩ := yields_responseIsFresh hW _ hs
  rw [Eff.bind_ok h₁]
  obtain ⟨s₂, h₂, -⟩ := yields_acceptable hW _ hs₁
  rw [Eff.bind_ok h₂]
  split
  · obtain ⟨s₃, h₃⟩ := acceptEntry_ok W path r ((W.load r s.world).responseIsFresh now now) s₂
    rw [Eff.bind_ok h₃]
    rfl
  · rfl

/-- The reference is handed out if the entry is found, is asked for and will do. -/
theorem cacheGet_eq_some_iff (hW : W.Still now) (path : Str) (r : Ref) (s : Scene ω Ref) :
    (cacheGet W path s).1 = .ok (some r) ↔
      s.client.clCacheControl.isset .noCache = false ∧ (W.get path s.world).1 = some r ∧
      (W.load r (W.get path s.world).2).suits now W.indeterminate
        ((W.load r (W.get path s.world).2).validAt (W.mtime path (W.get path s.world).2).1)
        s.client.clCacheControl = true := by
  unfold cacheGet isset
  rw [asks_bind]
  cases hno : s.client.clCacheControl.isset .noCache with
  | true => simp
  | false =>
    simp only [Bool.false_eq_true, if_false]
    cases hget : W.get path s.world with
    | mk found world =>
      cases found with
      | none => simp [get_bind_none hget]
      | some r' =>
        rw [get_bind_some hget, considerEntry_ok hW]
        constructor
        · intro h
          split at h
          · next hsuits =>
            cases h
            exact ⟨trivial, rfl, hsuits⟩
          · cases h
        · rintro ⟨-, hr, hsuits⟩
          cases hr
          exact congrArg Except.ok (if_pos hsuits)

/-- The client sent `max-stale`, and what the age exceeds the lifetime by is within the
allowance; there is no bound if no value came with it. -/
def CacheControl.Allows (cc : CacheControl) (excess : Int) : Prop :=
  cc.isset .useMaxStale = true ∧ (cc.maxStale = -1 ∨ excess ≤ cc.maxStale)

/-- The entry is fresh or valid, or as stale as the client allows. -/
def CacheEntry.Permitted (e : CacheEntry) (now : Int) (valid : Bool) (cc : CacheControl) : Prop :=
  e.responseIsFresh now now = true ∨ valid = true ∨
    cc.Allows (e.currentAge now now - e.freshnessLifetime)

/-- An entry that is handed out is permitted. -/
def ServesPermitted (W : World ω Ref) (now : Int) (path : Str) (s : Scene ω Ref) : Prop :=
  ∀ r, (cacheGet W path s).1 = .ok (some r) →
    (W.load r (W.get path s.world).2).Permitted now
      ((W.load r (W.get path s.world).2).validAt (W.mtime path (W.get path s.world).2).1)
      s.client.clCacheControl

/-- A stale entry that is not valid is refused, or was asked for: `min-fresh` asks for more than
it has left, `max-age` for less than its age, or `max-stale` for it, unless what the age exceeds the
lifetime by has wrapped around. -/
def CacheEntry.StaleHandled (e : CacheEntry) (now indeterminate : Int) (cc : CacheControl) : Prop :=
  (cc.isset .useMinFresh = true ∧
    (e.freshnessLifetime < signed 64 (e.currentAge now now + cc.minFresh) ∨
      cc.Allows (e.currentAge now now - e.freshnessLifetime))) ∨
  (cc.isset .useMinFresh = false ∧
    ((cc.isset .useMaxAge = true ∧ e.lesser indeterminate cc < e.currentAge now now) ∨
      (cc.isset .useMaxStale = true ∧
        (cc.maxStale < signed 64 (e.currentAge now now - e.freshnessLifetime) ∨
          cc.Allows (e.currentAge now now - e.freshnessLifetime)))))

/-- A stale entry that is not valid will do, without permission, unless it is handled. -/
private theorem CacheEntry.staleHandled_iff (e : CacheEntry) (now indeterminate : Int)
    (cc : CacheControl) (hfresh : e.responseIsFresh now now = false) :
    e.StaleHandled now indeterminate cc ↔
      (e.suits now indeterminate false cc = true →
        cc.Allows (e.currentAge now now - e.freshnessLifetime)) := by
  unfold StaleHandled suits CacheControl.Allows
  rw [hfresh]
  cases hmin : cc.isset .useMinFresh <;> cases hage : cc.isset .useMaxAge <;>
    cases hstale : cc.isset .useMaxStale <;> simp
  all_goals omega

/-- Nothing stale is handed out without permission unless a stale entry that is not valid is
found and is not handled. -/
theorem servesPermitted_iff (hW : W.Still now) (path : Str) (s : Scene ω Ref) :
    ServesPermitted W now path s ↔
      s.client.clCacheControl.isset .noCache = true ∨
      ∀ r, (W.get path s.world).1 = some r →
        (W.load r (W.get path s.world).2).responseIsFresh now now = true ∨
        (W.load r (W.get path s.world).2).validAt (W.mtime path (W.get path s.world).2).1 = true ∨
        (W.load r (W.get path s.world).2).StaleHandled now W.indeterminate
          s.client.clCacheControl := by
  cases hno : s.client.clCacheControl.isset .noCache with
  | true => simp [ServesPermitted, cacheGet_eq_some_iff hW, hno]
  | false =>
    simp only [ServesPermitted, cacheGet_eq_some_iff hW, hno, true_and, Bool.false_eq_true,
      false_or, and_imp]
    refine forall_congr' fun r ↦ imp_congr_right fun _ ↦ ?_
    generalize W.load r (W.get path s.world).2 = e
    generalize e.validAt (W.mtime path (W.get path s.world).2).1 = valid
    unfold CacheEntry.Permitted
    cases hfresh : e.responseIsFresh now now with
    | true => simp
    | false =>
      cases valid with
      | true => simp
      | false => simp [e.staleHandled_iff now W.indeterminate _ hfresh]

/-- A world that always shows the same time and finds the same entry; its files are gone. -/
def World.holding (entry : CacheEntry) (now : Int) : World Unit Unit :=
  { World.inert entry with
    time _ := (now, ())
    get _ _ := (some (), ()) }

private theorem World.still_holding (entry : CacheEntry) (now : Int) :
    (holding entry now).Still now :=
  ⟨fun _ ↦ rfl, fun _ _ ↦ rfl, fun _ _ _ ↦ rfl, fun _ _ ↦ rfl, fun _ _ ↦ rfl⟩

theorem servesPermitted_iff_blank :
    ServesPermitted (World.holding .blank 10) 10 [] (.new ()) ↔ False := by
  refine (servesPermitted_iff (World.still_holding .blank 10) [] (.new ())).trans ?_
  refine ⟨fun h ↦ ?_, False.elim⟩
  rcases h with h | h
  · exact absurd h (by decide)
  · rcases h () rfl with h | h | ⟨h, -⟩ | ⟨-, h | ⟨h, -⟩⟩ <;> exact absurd h (by decide)

/-- Without directives, an entry of age 20 is handed out, its lifetime 0 and its file gone. -/
theorem not_servesPermitted_blank :
    ¬ ServesPermitted (World.holding .blank 10) 10 [] (.new ()) := by
  intro h
  rcases h () (by decide) with h | h | ⟨h, -⟩ <;> exact absurd h (by decide)

section OneDirective

variable {cc : CacheControl} (e : CacheEntry) (indeterminate : Int) (valid : Bool)

/-- With `max-age` alone the age is compared with a bound. -/
private theorem CacheEntry.suits_maxAge (hset : ∀ o, cc.isset o = decide (.useMaxAge = o)) :
    e.suits now indeterminate valid cc = true ↔ e.currentAge now now ≤ e.lesser indeterminate cc := by
  simp [suits, hset]

/-- With `min-fresh` alone the age has to leave enough of the lifetime. -/
private theorem CacheEntry.suits_minFresh (hset : ∀ o, cc.isset o = decide (.useMinFresh = o)) :
    e.suits now indeterminate valid cc = true ↔
      signed 64 (e.currentAge now now + cc.minFresh) ≤ e.freshnessLifetime := by
  simp [suits, hset]

/-- With `max-stale` alone an entry that is neither fresh nor valid has to be within the
allowance. -/
theorem CacheEntry.suits_maxStale (hset : ∀ o, cc.isset o = decide (.useMaxStale = o)) :
    e.suits now indeterminate valid cc = true ↔ e.responseIsFresh now now = true ∨ valid = true ∨
      signed 64 (e.currentAge now now - e.freshnessLifetime) ≤ cc.maxStale := by
  cases hfresh : e.responseIsFresh now now <;> cases valid <;> simp [suits, hset, hfresh]

/-- The rule that the comments quote for a directive, on whether the entry is accepted. -/
def Directive.Rule (d : Directive) (e : CacheEntry) (now : Int) (accepted : Prop) : Prop :=
  match d with
  | .maxAge n => accepted ↔
      e.currentAge now now ≤ if e.useMaxAge then min n.val e.maxAgeValue else n.val
  | .minFresh n => accepted ↔ e.currentAge now now + n.val ≤ e.freshnessLifetime
  | .maxStale (some n) => e.responseIsFresh now now = false →
      (accepted ↔ e.currentAge now now - e.freshnessLifetime ≤ n.val)
  | .maxStale none => e.responseIsFresh now now = false → accepted
  | _ => True

/-- What is done with the `n` of a directive makes no difference. The bound for the age, where it
is not the `max-age` of the entry, is on the same side of the age as the one of the rule; so is the
lifetime of both sums, and the allowance of both excesses. -/
def Listed.Harmless (l : Listed) (line : Str) (old : CacheControl) (e : CacheEntry)
    (now indeterminate : Int) (valid : Bool) : Prop :=
  let age := e.currentAge now now
  let lifetime := e.freshnessLifetime
  match l.directive with
  | .maxAge n =>
    let found := l.found n line old.maxAge
    let bound := if e.useMaxAge then min n.val e.maxAgeValue else n.val
    if e.useMaxAge = true ∧ e.maxAgeValue < indeterminate then
      e.maxAgeValue ≤ n.val ∨ age ≤ n.val ∨ e.maxAgeValue < age
    else age ≤ min found bound ∨ max found bound < age
  | .minFresh n =>
    -- a sum of `time_t` wraps around
    let sum := signed 64 (age + l.found n line old.minFresh)
    max sum (age + n.val) ≤ lifetime ∨ lifetime < min sum (age + n.val)
  | .maxStale (some n) =>
    let found := l.found n line old.maxStale
    let excess := age - lifetime
    excess < 0 ∨
      if valid then excess ≤ n.val
      else (signed 64 excess ≤ found ∧ excess ≤ n.val) ∨
        (found < signed 64 excess ∧ n.val < excess)
  | .maxStale none => age < lifetime ∨ valid = true ∨ signed 64 (age - lifetime) < 0
  | _ => True

/-- A number that is the third word of the line is harmless, if it is a `time_t` with its sums and
a `max-age` of the entry compares with the indeterminate value as with the number. -/
theorem Listed.harmless_of_read {l : Listed} {line : Str} {n : DeltaSeconds}
    (hn : l.directive.delta = some n) (hread : thirdWord line = n.digits.1 ++ l.after.1)
    (htime : IsTime n.val) (hsum : IsTime (e.currentAge now now + n.val))
    (hexcess : IsTime (e.currentAge now now - e.freshnessLifetime))
    (hown : e.useMaxAge = true → (e.maxAgeValue < indeterminate ↔ e.maxAgeValue < n.val))
    (old : CacheControl) : l.Harmless line old e now indeterminate false := by
  have hfound (x : Int) : l.found n line x = n.val := by
    rw [Listed.found, if_pos hread, min_eq_left]
    have := htime.2
    omega
  unfold Listed.Harmless
  cases hd : l.directive with
  | maxAge m =>
    obtain rfl : m = n := by simpa [hd, Directive.delta] using hn
    cases hmax : e.useMaxAge with
    | false => simp [hfound, le_or_gt]
    | true =>
      have := hown hmax
      simp only [hfound, if_true, true_and, this]
      split <;> omega
  | minFresh m =>
    obtain rfl : m = n := by simpa [hd, Directive.delta] using hn
    simp [hfound, hsum.signed, le_or_gt]
  | maxStale m =>
    obtain rfl : m = some n := by simpa [hd, Directive.delta] using hn
    simp only [hfound, hexcess.signed, Bool.false_eq_true, if_false]
    omega
  | _ => trivial

variable {cfg : Config} {w w' : Client} {l : Listed} {path : Str} {r : Ref} {s : Scene ω Ref}

/-- The rule for a directive is followed if and only if what is used for its `n` is harmless. -/
theorem rule_iff_harmless (hW : W.Still now) (hflags : w.clCacheControl.flags = [])
    (hline : Conforms (w.line .cacheControl) [l]) (hbrowse : Client.browseReq cfg w = (.ok (), w'))
    (hs : s.client = w') (hget : (W.get path s.world).1 = some r) :
    l.directive.Rule (W.load r (W.get path s.world).2) now
        ((cacheGet W path s).1 = .ok (some r)) ↔
      l.Harmless (w.line .cacheControl) w.clCacheControl
        (W.load r (W.get path s.world).2) now W.indeterminate
        ((W.load r (W.get path s.world).2).validAt (W.mtime path (W.get path s.world).2).1) := by
  have hcc := (Client.browsed hbrowse).clCacheControl
  have hall : ∀ l' ∈ [l], l'.directive.opt = l.directive.opt := by simp
  have hset : ∀ o, w'.clCacheControl.isset o = decide (l.directive.opt = o) := by
    intro o
    rw [Bool.eq_iff_iff, decide_eq_true_eq, hcc, isset_readCacheControl _ hflags,
      hline.directive_of_uniform hall, Option.some.injEq]
  have hfield (n : DeltaSeconds) (hn : l.directive.delta = some n) :
      w'.clCacheControl.field l.directive.opt =
        l.found n (w.line .cacheControl) (w.clCacheControl.field l.directive.opt) := by
    rw [hcc, ← hline.kept_eq hn]
    exact hline.field_readCacheControl hall List.mem_cons_self hn _
  rw [cacheGet_eq_some_iff hW, hs, hset, hget]
  generalize W.load r (W.get path s.world).2 = e
  generalize e.validAt (W.mtime path (W.get path s.world).2).1 = valid
  unfold Listed.Harmless
  cases hd : l.directive with
  | maxAge n =>
    rw [hd] at hset hfield
    have hfound : w'.clCacheControl.maxAge =
        l.found n (w.line .cacheControl) w.clCacheControl.maxAge := hfield n rfl
    simp only [Directive.Rule, Directive.opt, e.suits_maxAge _ _ hset, CacheEntry.lesser, hfound]
    cases e.useMaxAge with
    | false =>
      simp
      omega
    | true =>
      simp
      split <;> omega
  | minFresh n =>
    rw [hd] at hset hfield
    have hfound : w'.clCacheControl.minFresh =
        l.found n (w.line .cacheControl) w.clCacheControl.minFresh := hfield n rfl
    simp [Directive.Rule, Directive.opt, e.suits_minFresh _ _ hset, hfound]
    omega
  | maxStale m =>
    rw [hd] at hset hfield
    have hfresh : e.responseIsFresh now now = decide (e.currentAge now now < e.freshnessLifetime) :=
      rfl
    cases m with
    | none =>
      have hvalue : '=' ∉ w.line .cacheControl := by
        rw [hline.mem_iff]
        simp [hd, Directive.delta]
      have hnone : w'.clCacheControl.maxStale = -1 := by
        have hdir := hline.directive_of_uniform hall
        rw [hd] at hdir
        rw [hcc, readCacheControl_maxStale hdir, if_neg hvalue]
      simp only [Directive.Rule, Directive.opt, e.suits_maxStale _ _ hset, hnone, hfresh]
      cases valid <;> simp
      omega
    | some n =>
      have hfound : w'.clCacheControl.maxStale =
          l.found n (w.line .cacheControl) w.clCacheControl.maxStale := hfield n rfl
      simp only [Directive.Rule, Directive.opt, e.suits_maxStale _ _ hset, hfound, hfresh]
      cases valid <;> simp <;> omega
  | _ => simp [Directive.Rule]

/-- A connection whose request has a `Cache-Control` line, as `browse_req` leaves it. -/
def Scene.asking (line : String) : Scene Unit Unit :=
  { Scene.new () with client := (Client.browseReq .lax (.asking line)).2 }

theorem rule_iff_harmless_five :
    (Directive.maxAge .five).Rule .blank 10
        ((cacheGet (World.holding .blank 10) [] (.asking "Cache-Control: max-age= 5")).1 =
          .ok (some ())) ↔
      (Listed.plain (.maxAge .five)).Harmless
        ((Client.asking "Cache-Control: max-age= 5").line .cacheControl) .new .blank 10 0 false :=
  rule_iff_harmless (w := .asking "Cache-Control: max-age= 5") (l := .plain (.maxAge .five))
    (World.still_holding .blank 10) rfl ⟨by decide +kernel, by simp⟩
    (show Client.browseReq .lax _ = _ from rfl) rfl rfl

/-- With `max-stale` and no value, a stale entry is refused. -/
theorem not_rule_maxStale : ¬ (Directive.maxStale none).Rule .blank 10
    ((cacheGet (World.holding .blank 10) [] (.asking "Cache-Control: max-stale")).1 =
      .ok (some ())) := by
  intro h
  exact absurd (h (by decide)) (by decide +kernel)

end OneDirective
end Filth
