import Filth.Server.Abreast

/-!
# References over a kept-alive connection

A request gets a reference to a cache entry from `cache_get` or `cache_put`, and `reset` gives
it back if `resp_is_cached` says so. The flag is assigned where the cache is looked up and
nowhere else, so a request that leaves before that finds the flag of the one before it.
-/

namespace Filth

open Base WorkM

variable {ω Ref : Type} (W : World ω Ref) (cfg : Config)

/-- What the books on references say. -/
def ledger (s : Scene ω Ref) : Bool × Str × List Str := (s.respIsCached, s.client.path, s.refs)

/-- The books stay as they are, however the program ends. -/
def Quiet {α : Type} (x : WorkM ω Ref α) : Prop := ∀ s, ledger (x s).2 = ledger s

/-- A scene with given books goes along with itself. -/
theorem attuned_ledger (b : Bool × Str × List Str) :
    Attuned W fun s t : Scene ω Ref ↦ s = t ∧ ledger s = b where
  world h := h.1 ▸ rfl
  stat h := h.1 ▸ rfl
  reqHdrs h := h.1 ▸ rfl
  meth h := h.1 ▸ rfl
  flags h := h.1 ▸ rfl
  alike h := h.1 ▸ .refl _
  setWorld h _ := ⟨h.1 ▸ rfl, h.2⟩
  setC h _ := ⟨h.1 ▸ rfl, h.2⟩
  setUncompressed h _ := ⟨h.1 ▸ rfl, h.2⟩
  setNosch h _ := ⟨h.1 ▸ rfl, h.2⟩

variable {α : Type} {x : WorkM ω Ref α}

private theorem Quiet.of_lockstep (h : ∀ {K}, Attuned W K → x.Lockstep K) : Quiet x :=
  Eff.Lockstep.keeps fun b ↦ h (attuned_ledger W b)

/-- A calm program also returns. -/
theorem ledger_of_calm (h : ∀ {K}, Attuned W K → x.Calm K) (s : Scene ω Ref) :
    ∃ a s', x s = (.ok a, s') ∧ ledger s' = ledger s :=
  Eff.Calm.keeps (fun b ↦ h (attuned_ledger W b)) s

/-- The reference to an entry that was found is kept just when the entry is taken. -/
private theorem considerEntry_ledger (path : Str) (r : Ref) (s : Scene ω Ref) {rs : List Str}
    (hs : s.refs = path :: rs) : ∃ hit s', considerEntry W path r s = (.ok hit, s') ∧
      ledger s' = (s.respIsCached, s.client.path, if hit.isSome then path :: rs else rs) := by
  obtain ⟨_, s₁, hset, h₁⟩ := ledger_of_calm W (calm_setC W ·.toAbreast (some r)) s
  obtain ⟨fresh, s₂, hfresh, h₂⟩ := ledger_of_calm W (calm_responseIsFresh W ·.toAbreast r) s₁
  obtain ⟨ok, s₃, hok, h₃⟩ := ledger_of_calm W (calm_acceptable W · path r fresh) s₂
  have hbooks : ledger s₃ = (s.respIsCached, s.client.path, path :: rs) := by
    rw [h₃, h₂, h₁, ledger, hs]
  rw [considerEntry, Eff.bind_ok hset, Eff.bind_ok hfresh, Eff.bind_ok hok]
  cases ok with
  | true =>
    obtain ⟨_, s₄, haccept, h₄⟩ := ledger_of_calm W (calm_acceptEntry W ·.toAbreast path r fresh) s₃
    rw [if_pos rfl, Eff.bind_ok haccept]
    exact ⟨some r, s₄, rfl, h₄.trans hbooks⟩
  | false =>
    refine ⟨none, _, rfl, ?_⟩
    simp only [ledger, Prod.mk.injEq] at hbooks
    simp [ledger, hbooks]

/-- `cache_get` returns, and holds a reference just when it returns an entry. -/
private theorem cacheGet_ledger (path : Str) (s : Scene ω Ref) :
    ∃ hit s', cacheGet W path s = (.ok hit, s') ∧
      ledger s' = (s.respIsCached, s.client.path, if hit.isSome then path :: s.refs else s.refs) := by
  rw [cacheGet, isset_bind]
  split
  · exact ⟨none, s, rfl, rfl⟩
  · cases hget : W.get path s.world with
    | mk found world =>
      cases found with
      | none =>
        rw [get_bind_none hget]
        exact ⟨none, { s with world }, rfl, rfl⟩
      | some r =>
        rw [get_bind_some hget]
        exact considerEntry_ledger W path r { s with world, refs := path :: s.refs } rfl

/-- `cache_put` returns, and holds a reference just when it returns true. -/
private theorem cachePut_ledger (path : Str) (r : Ref) (s : Scene ω Ref) :
    ∃ stored s', cachePut W path r s = (.ok stored, s') ∧
      ledger s' = (s.respIsCached, s.client.path, if stored then path :: s.refs else s.refs) := by
  obtain ⟨may, s₁, hmay, h₁⟩ := ledger_of_calm W (calm_methodStores W ·.toAbreast r) s
  simp only [ledger, Prod.mk.injEq] at h₁
  rw [cachePut, Eff.bind_ok hmay]
  split
  · refine ⟨false, s₁, rfl, ?_⟩
    simp [ledger, h₁]
  · rw [isset_bind]
    split
    · refine ⟨false, s₁, rfl, ?_⟩
      simp [ledger, h₁]
    · refine ⟨_, _, rfl, ?_⟩
      simp [ledger, h₁]

/-- What a reset would give back. -/
def resetUngets (s : Scene ω Ref) : List Str := if s.respIsCached then [s.client.path] else []

/-- The next reset gives back what the request has obtained. -/
def Balanced (s : Scene ω Ref) : Prop := resetUngets s = s.refs

instance (s : Scene ω Ref) : Decidable (Balanced s) :=
  inferInstanceAs (Decidable (resetUngets s = s.refs))

/-- Only the books matter. -/
theorem balanced_iff {s : Scene ω Ref} {cached : Bool} {path : Str} {refs : List Str}
    (h : ledger s = (cached, path, refs)) :
    Balanced s ↔ (if cached then [path] else []) = refs := by
  simp only [ledger, Prod.mk.injEq] at h
  rw [Balanced, resetUngets, h.1, h.2.1, h.2.2]

/-- Quiet programs keep the balance. -/
theorem Balanced.quiet {s : Scene ω Ref} (hs : Balanced s)
    (h : Quiet x) : Balanced (x s).2 := by
  rw [balanced_iff (h s)]
  exact hs

/-- However asking the origin server ends, the flag says whether there is a reference. -/
private theorem balanced_askOrigin (path reqBody : Str) (s : Scene ω Ref)
    (hs : ledger s = (false, path, [])) : Balanced (askOrigin W cfg path reqBody s).2 := by
  have hbal {s' : Scene ω Ref} (h : ledger s' = (false, path, [])) : Balanced s' :=
    (balanced_iff h).mpr rfl
  cases hreq : W.request path s.world with
  | mk result world =>
    rw [askOrigin, call_bind hreq]
    cases result with
    | ok r =>
      obtain ⟨_, s₁, hset, h₁⟩ := ledger_of_calm W (calm_setC W ·.toAbreast (some r)) { s with world }
      obtain ⟨_, s₂, hdress, h₂⟩ := ledger_of_calm W (calm_dress W cfg ·.toAbreast path r true) s₁
      obtain ⟨stored, s₃, hput, h₃⟩ := cachePut_ledger W path r s₂
      have hbooks : ledger s₂ = (false, path, []) := h₂.trans (h₁.trans hs)
      simp only [ledger, Prod.mk.injEq] at hbooks h₃
      rw [hbooks.2.1, hbooks.2.2] at h₃
      simp only [Eff.bind_ok hset, Eff.bind_ok hdress, Eff.bind_ok hput, setCached_bind]
      have hflag : Balanced { s₃ with respIsCached := stored } := by
        rw [Balanced, resetUngets, h₃.2.1, h₃.2.2]
      exact Balanced.quiet (x := answer W r) hflag (.of_lockstep W (lockstep_answer W · r))
    | error err =>
      obtain ⟨_, s₁, hset, h₁⟩ := ledger_of_calm W (calm_setC W ·.toAbreast none) { s with world }
      have hbooks : ledger s₁ = (false, path, []) := h₁.trans hs
      simp only [Eff.bind_ok hset]
      split
      · exact hbal hbooks
      · split
        · exact hbal hbooks
        · split
          · cases hdir : W.dirtoHTML path s₁.world with
            | mk page world =>
              rw [call_bind hdir]
              cases page with
              | ok r =>
                obtain ⟨_, s₂, hset, h₂⟩ := ledger_of_calm W (calm_setC W ·.toAbreast (some r)) { s₁ with world }
                obtain ⟨_, s₃, hdress, h₃⟩ := ledger_of_calm W (calm_dress W cfg ·.toAbreast path r false) s₂
                have hbooks₃ : ledger s₃ = (false, path, []) := h₃.trans (h₂.trans hbooks)
                simp only [ledger, Prod.mk.injEq] at hbooks₃
                simp only [Eff.bind_ok hset, Eff.bind_ok hdress, setCached_bind]
                have hflag : Balanced { s₃ with respIsCached := false } :=
                  hbal (by simp [ledger, hbooks₃])
                exact Balanced.quiet (x := answer W r) hflag (.of_lockstep W (lockstep_answer W · r))
              | error _ => exact hbal hbooks
          · split
            · exact (hbal hbooks).quiet (.of_lockstep W (lockstep_domainSocket W ·.toAbreast path reqBody))
            · exact hbal hbooks

/-- A request that looks into the cache ends with the books balanced. -/
private theorem balanced_getStyle (path reqBody : Str) (s : Scene ω Ref)
    (hpath : s.client.path = path)
    (hrefs : s.refs = []) : Balanced (getStyle W cfg path reqBody s).2 := by
  obtain ⟨hit, s₁, hget, h₁⟩ := cacheGet_ledger W path s
  rw [hpath, hrefs] at h₁
  simp only [ledger, Prod.mk.injEq] at h₁
  rw [getStyle, Eff.bind_ok hget, setCached_bind]
  cases hit with
  | some r =>
    have hflag : Balanced { s₁ with respIsCached := true } := by
      rw [Balanced, resetUngets, h₁.2.1, h₁.2.2]
      rfl
    exact Balanced.quiet (x := answer W r) hflag (.of_lockstep W (lockstep_answer W · r))
  | none =>
    have hbooks : ledger { s₁ with respIsCached := false } = (false, path, []) := by
      simp [ledger, h₁]
    simp only [isset_bind, Option.isSome_none]
    split
    · exact (balanced_iff hbooks).mpr rfl
    · exact balanced_askOrigin W cfg path reqBody _ hbooks

/-- A request that looks into the cache balances the books, another one leaves them. -/
private theorem prepareResponse_ledger (reqBody : Str) (s : Scene ω Ref) (hrefs : s.refs = []) :
    (looksUp cfg s.client = true ∧ Balanced (prepareResponse W cfg reqBody s).2) ∨
    (looksUp cfg s.client = false ∧ (prepareResponse W cfg reqBody s).2.refs = [] ∧
      (prepareResponse W cfg reqBody s).2.respIsCached = s.respIsCached) := by
  rw [prepareResponse_eq, looksUp]
  have hquiet {w : Client} {x : WorkM ω Ref (Option Response)} (hx : Quiet x) :
      (x { s with client := w }).2.refs = [] ∧
        (x { s with client := w }).2.respIsCached = s.respIsCached := by
    have hbooks := hx { s with client := w }
    simp only [ledger, Prod.mk.injEq] at hbooks
    exact ⟨hbooks.2.2.trans hrefs, hbooks.1⟩
  cases Client.browseReq cfg s.client with
  | mk r w =>
    cases r with
    | error e => exact .inr ⟨rfl, hrefs, rfl⟩
    | ok u =>
      have hget : Balanced (getStyle W cfg w.path reqBody { s with client := w }).2 :=
        balanced_getStyle W cfg w.path reqBody _ rfl hrefs
      have hwrite (append : Bool) : Quiet (putOrPost W w.path reqBody append) :=
        Eff.Lockstep.keeps fun b ↦
          lockstep_putOrPost W (attuned_ledger W b).toAbreast (fun s t h ↦ h.1 ▸ rfl) w.path reqBody append
      dsimp only
      cases w.meth with
      | connect => exact .inr ⟨rfl, hrefs, rfl⟩
      | post => exact .inr ⟨rfl, hquiet (hwrite true)⟩
      | put => exact .inr ⟨rfl, hquiet (hwrite false)⟩
      | delete => exact .inr ⟨rfl, hquiet (.of_lockstep W (lockstep_deleteFile W ·.toAbreast w.path))⟩
      | get => exact .inl ⟨rfl, hget⟩
      | head => exact .inl ⟨rfl, hget⟩
      | options => exact .inl ⟨rfl, hget⟩
      | trace => exact .inl ⟨rfl, hget⟩

/-- The handler of what was thrown does not touch the books. -/
private theorem respond_ledger (reqBody : Str) (s : Scene ω Ref) :
    ledger (respond W cfg reqBody s).2 = ledger (prepareResponse W cfg reqBody s).2 := by
  unfold respond
  cases hprep : prepareResponse W cfg reqBody s with
  | mk r s' =>
    cases r with
    | ok a => rw [Eff.tryCatch_ok hprep]
    | error e =>
      rw [Eff.tryCatch_error hprep]
      exact Quiet.of_lockstep W (fun hK ↦ .bind (calm_onOops W hK.toAbreast e).lockstep fun _ ↦ .pure _) s'

/-- Of a request from its arrival to the response. -/
theorem serve_ledger (s : Scene ω Ref) (q : Request ω) (hrefs : s.refs = []) :
    (looksUp cfg { s.client with reqHdrs := q.hdrs } = true ∧ Balanced (serve W cfg s q).2) ∨
    (looksUp cfg { s.client with reqHdrs := q.hdrs } = false ∧ (serve W cfg s q).2.refs = [] ∧
      (serve W cfg s q).2.respIsCached = s.respIsCached) := by
  have hbooks := respond_ledger W cfg q.body
    { s with client := { s.client with reqHdrs := q.hdrs }, world := q.world }
  rcases prepareResponse_ledger W cfg q.body
    { s with client := { s.client with reqHdrs := q.hdrs }, world := q.world } hrefs with
    ⟨hlooks, hbal⟩ | ⟨hlooks, hnone, hflag⟩
  · refine .inl ⟨hlooks, ?_⟩
    rw [serve, balanced_iff hbooks, ← balanced_iff rfl]
    exact hbal
  · simp only [ledger, Prod.mk.injEq] at hbooks
    exact .inr ⟨hlooks, hbooks.2.2.trans hnone, hbooks.1.trans hflag⟩

/-- Handling a request balances the books if and only if the request looks into the cache or
finds the flag clear. -/
theorem balanced_serve_iff (s : Scene ω Ref) (q : Request ω) (hrefs : s.refs = []) :
    Balanced (serve W cfg s q).2 ↔
      s.respIsCached = false ∨ looksUp cfg { s.client with reqHdrs := q.hdrs } = true := by
  rcases serve_ledger W cfg s q hrefs with ⟨hlooks, hbal⟩ | ⟨hlooks, hnone, hflag⟩
  · exact iff_of_true hbal (.inr hlooks)
  · rw [Balanced, resetUngets, hnone, hflag, hlooks]
    cases s.respIsCached <;> simp

/-- After a reset the work holds no reference. -/
private theorem refs_reset (s : Scene ω Ref) (q : Request ω) (hrefs : s.refs = []) :
    (reset W (wake (serve W cfg s q).2)).refs = [] := by
  rw [reset, wake]
  dsimp only
  rcases serve_ledger W cfg s q hrefs with ⟨-, hbal⟩ | ⟨-, hnone, -⟩
  · rw [Balanced, resetUngets] at hbal
    rw [← hbal]
    cases (serve W cfg s q).2.respIsCached <;> simp
  · rw [hnone]
    simp

/-- For any requests on a kept-alive connection, in any world: every reset gives back what the
request before it has obtained, no more and no less, if and only if no request that leaves
before the lookup finds the flag of an earlier one set. -/
theorem references_balanced_iff (world : ω) (qs : List (Request ω)) :
    (connection W cfg world).AllSteps (fun s q ↦ Balanced (serve W cfg s q).2)
        (connection W cfg world).init qs ↔
      (connection W cfg world).AllSteps (fun s q ↦ s.respIsCached = false ∨
        looksUp cfg { s.client with reqHdrs := q.hdrs } = true) (connection W cfg world).init qs := by
  apply Machine.allSteps_congr (J := fun s ↦ s.refs = [])
  · exact fun s q _ hrefs _ ↦ balanced_serve_iff W cfg s q hrefs
  · intro s q s' hrefs hstep
    simp only [connection] at hstep
    split at hstep
    · cases hstep
    · cases hstep
      exact refs_reset W cfg s q hrefs
  · rfl

/-- A file that the cache takes in, and writes that succeed. -/
def oneFile : World Unit Unit :=
  { World.inert .blank with
    put := fun _ _ _ _ ↦ (true, ())
    request := fun _ _ ↦ (.ok (), ())
    putorpost := fun _ _ _ _ _ ↦ (none, ()) }

/-- The flag that a stored response leaves makes the reset after a `PUT` give back a reference
to another path, which may belong to another connection. -/
theorem not_balanced_of_put : ¬ ∀ qs : List (Request Unit),
    (connection oneFile .lax ()).AllSteps (fun s q ↦ Balanced (serve oneFile .lax s q).2)
      (connection oneFile .lax ()).init qs := by
  intro h
  exact absurd (h [{ hdrs := .ofReqln "HEAD / HTTP/1.1", body := [], world := () },
    { hdrs := .ofReqln "PUT /a HTTP/1.1", body := [], world := () }]) (by decide)

end Filth
