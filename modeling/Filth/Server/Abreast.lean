import Filth.Server.Prepare

/-!
# Two works side by side

What a request does between the reading of its headers and its response depends on the world
and on little else. Two works that agree on that little answer alike, whatever else they carry
with them. Both what a request leaves alone and what it takes over from earlier ones are read
off from here.
-/

namespace Filth

open Base WorkM

variable {ω Ref : Type} (W : World ω Ref) (cfg : Config)

/-- Two scenes stay side by side under whatever is done to both: they agree on the world and on
what every request reads, and the relation does not look at what a request changes. -/
structure Abreast (W : World ω Ref) (K : Scene ω Ref → Scene ω Ref → Prop) : Prop where
  world {s t} : K s t → s.world = t.world
  stat {s t} : K s t → s.stat = t.stat
  reqHdrs {s t} : K s t → s.client.reqHdrs = t.client.reqHdrs
  meth {s t} : K s t → s.client.meth = t.client.meth
  flags {s t} : K s t → s.client.clCacheControl.flags = t.client.clCacheControl.flags
  setWorld {s t world} : K s t → W.Moves s.world world → K { s with world } { t with world }
  setC {s t} : K s t → ∀ c, K { s with c } { t with c }
  setUncompressed {s t} : K s t → ∀ b, K { s with uncompressed := b } { t with uncompressed := b }
  setNosch {s t} : K s t → ∀ b, K { s with nosch := b } { t with nosch := b }

/-- Two works agree on what a lookup reads. A value counts only if its directive is set, and
what the client accepts only if the response is to have a body. -/
structure Alike (w v : Client) : Prop where
  minFresh : w.clCacheControl.isset .useMinFresh →
    w.clCacheControl.minFresh = v.clCacheControl.minFresh
  maxAge : w.clCacheControl.isset .useMaxAge → w.clCacheControl.maxAge = v.clCacheControl.maxAge
  maxStale : w.clCacheControl.isset .useMaxStale →
    w.clCacheControl.maxStale = v.clCacheControl.maxStale
  clAcceptEnc : w.meth ≠ .head → w.clAcceptEnc = v.clAcceptEnc

theorem Alike.refl (w : Client) : Alike w w :=
  ⟨fun _ ↦ rfl, fun _ ↦ rfl, fun _ ↦ rfl, fun _ ↦ rfl⟩

/-- Side by side in a lookup. -/
structure Attuned (W : World ω Ref) (K : Scene ω Ref → Scene ω Ref → Prop) : Prop
    extends Abreast W K where
  alike {s t} : K s t → Alike s.client t.client

variable {W} {K : Scene ω Ref → Scene ω Ref → Prop}

/-- What is known about what both requests say stays known. -/
theorem Attuned.given {γ : Type} (hK : Attuned W K) (g : Client → γ) (a : γ) :
    Attuned W fun s t ↦ K s t ∧ g s.client = a ∧ g t.client = a where
  world h := hK.world h.1
  stat h := hK.stat h.1
  reqHdrs h := hK.reqHdrs h.1
  meth h := hK.meth h.1
  flags h := hK.flags h.1
  setWorld h hmove := ⟨hK.setWorld h.1 hmove, h.2⟩
  setC h c := ⟨hK.setC h.1 c, h.2⟩
  setUncompressed h b := ⟨hK.setUncompressed h.1 b, h.2⟩
  setNosch h b := ⟨hK.setNosch h.1 b, h.2⟩
  alike h := hK.alike h.1

variable (W)

section Calm

variable {α β : Type}

theorem calm_call (hK : Abreast W K) {f : ω → α × ω} (hf : ∀ w, W.Moves w (f w).2) :
    (call f : WorkM ω Ref α).Calm K := by
  apply Eff.Calm.modifyGet
  intro s t h
  have hmove := hK.setWorld h (hf s.world)
  rw [hK.world h] at hmove ⊢
  exact ⟨rfl, hmove⟩

theorem calm_load (hK : Abreast W K) (r : Ref) (g : CacheEntry → α) : (load W r g).Calm K := by
  apply Eff.Calm.gets
  intro s t h
  rw [hK.world h]

private theorem calm_push (hK : Abreast W K) (r : Ref) (f : CacheEntry → CacheEntry) :
    (push W r f).Calm K := by
  apply Eff.Calm.modify
  intro s t h
  have hmove := hK.setWorld h (.store r (f (W.load r s.world)) s.world)
  rw [hK.world h] at hmove ⊢
  exact hmove

private theorem calm_adviseEvict (hK : Abreast W K) (path : Str) : (adviseEvict W path).Calm K := by
  apply Eff.Calm.modify
  intro s t h
  have hmove := hK.setWorld h (.adviseEvict path s.world)
  rw [hK.world h] at hmove ⊢
  exact hmove

theorem calm_setC (hK : Abreast W K) (c : Option Ref) : (setC c : WorkM ω Ref Unit).Calm K :=
  .modify fun _ _ h ↦ hK.setC h c

/-- What both works agree on is read alike. -/
theorem calm_asks {g : Client → α} (hg : ∀ s t, K s t → g s.client = g t.client) :
    (asks g : WorkM ω Ref α).Calm K := .gets hg

/-- The same, and what follows may use the value. -/
theorem lockstep_asks_bind {g : Client → α} {f : α → WorkM ω Ref β}
    (hg : ∀ s t, K s t → g s.client = g t.client)
    (hf : ∀ a, (f a).Lockstep fun s t ↦ K s t ∧ g s.client = a ∧ g t.client = a) :
    (asks g >>= f).Lockstep K := .gets_bind hg hf

private theorem calm_stat (hK : Abreast W K) (f : Status → WorkM ω Ref β)
    (hf : ∀ stat, (f stat).Calm K) : (Eff.gets Scene.stat >>= f).Calm K :=
  .bind (.gets fun _ _ h ↦ hK.stat h) hf

/-- A directive is set for both or for neither. -/
theorem isset_congr (hK : Abreast W K) (o : CacheOpt) {s t : Scene ω Ref} (h : K s t) :
    s.client.clCacheControl.isset o = t.client.clCacheControl.isset o := by
  rw [CacheControl.isset, CacheControl.isset, hK.flags h]

theorem calm_isset (hK : Abreast W K) (o : CacheOpt) : (isset o : WorkM ω Ref Bool).Calm K :=
  calm_asks fun _ _ h ↦ isset_congr W hK o h

/-- What follows may use that the directive is set, or that it is not. -/
theorem calm_isset_bind (hK : Abreast W K) (o : CacheOpt) (f : Bool → WorkM ω Ref α)
    (hf : ∀ b, (f b).Calm fun s t ↦ K s t ∧
      s.client.clCacheControl.isset o = b ∧ t.client.clCacheControl.isset o = b) :
    (isset o >>= f).Calm K :=
  .gets_bind (fun _ _ h ↦ isset_congr W hK o h) hf

private theorem calm_currentAge (hK : Abreast W K) (r : Ref) : (currentAge W r).Calm K :=
  .bind (calm_call W hK .time) fun _ ↦ .bind (calm_call W hK .time) fun _ ↦ calm_load W hK r _

theorem calm_responseIsFresh (hK : Abreast W K) (r : Ref) : (responseIsFresh W r).Calm K :=
  .bind (calm_currentAge W hK r) fun _ ↦ calm_load W hK r _

private theorem calm_validate (hK : Abreast W K) (path : Str) (r : Ref) :
    (validate W path r).Calm K := by
  apply Eff.Calm.bind (calm_call W hK (.mtime path))
  intro t
  cases t with
  | none => exact .pure _
  | some t => exact calm_load W hK r _

private theorem calm_withinMaxStale (hK : Attuned W K)
    (hset : ∀ s t, K s t → s.client.clCacheControl.isset .useMaxStale) (r : Ref) :
    (withinMaxStale W r).Calm K := by
  apply Eff.Calm.bind (calm_currentAge W hK.toAbreast r)
  intro age
  apply Eff.Calm.bind (calm_load W hK.toAbreast r _)
  intro lifetime
  apply Eff.Calm.gets
  intro s t h
  dsimp only
  rw [(hK.alike h).maxStale (hset s t h)]

private theorem calm_freshOrValid (hK : Abreast W K) (path : Str) (r : Ref) (fresh : Bool) :
    (freshOrValid W path r fresh).Calm K :=
  .ite (fun _ ↦ .pure _) fun _ ↦ calm_validate W hK path r

theorem calm_acceptable (hK : Attuned W K) (path : Str) (r : Ref) (fresh : Bool) :
    (acceptable W path r fresh).Calm K := by
  have hmaxStale {K : Scene ω Ref → Scene ω Ref → Prop} (hK : Attuned W K) : Eff.Calm K (do
      if ← isset .useMaxStale then withinMaxStale W r else return true) := by
    apply calm_isset_bind W hK.toAbreast
    intro b
    apply Eff.Calm.ite
    · rintro rfl
      exact calm_withinMaxStale W (hK.given (·.clCacheControl.isset .useMaxStale) true)
        (fun s t h ↦ h.2.1) r
    · exact fun _ ↦ .pure _
  have hK' := hK.toAbreast
  apply Eff.Calm.bind (calm_freshOrValid W hK' path r fresh)
  intro valid
  refine .bind (calm_isset W hK' _) fun _ ↦ .bind (calm_isset W hK' _) fun _ ↦ ?_
  refine .ite (fun _ ↦ .pure _) fun _ ↦ ?_
  apply calm_isset_bind W hK'
  intro b
  have hK := hK.given (·.clCacheControl.isset .useMinFresh) b
  have hK' := hK.toAbreast
  refine .ite ?_ fun _ ↦ ?_
  · rintro rfl
    refine .bind (calm_load W hK' r _) fun _ ↦ .bind (calm_currentAge W hK' r) fun _ ↦ .gets ?_
    intro s t h
    dsimp only
    rw [(hK.alike h).minFresh h.2.1]
  · apply calm_isset_bind W hK'
    intro b
    have hK := hK.given (·.clCacheControl.isset .useMaxAge) b
    have hK' := hK.toAbreast
    refine .ite ?_ fun _ ↦ hmaxStale hK
    rintro rfl
    refine .bind (calm_load W hK' r _) fun _ ↦ .bind (calm_load W hK' r _) fun _ ↦ ?_
    refine .bind (.gets ?_) fun _ ↦ ?_
    · intro s t h
      dsimp only
      rw [(hK.alike h).maxAge h.2.1]
    · exact .bind (calm_currentAge W hK' r) fun _ ↦ .ite (fun _ ↦ hmaxStale hK) fun _ ↦ .pure _

theorem calm_acceptEntry (hK : Abreast W K) (path : Str) (r : Ref) (fresh : Bool) :
    (acceptEntry W path r fresh).Calm K :=
  .bind (calm_currentAge W hK r) fun _ ↦ .bind (calm_push W hK r _) fun _ ↦
    .ite (fun _ ↦ .pure _) fun _ ↦ .bind (calm_adviseEvict W hK path) fun _ ↦ calm_push W hK r _

private theorem calm_unexpired (hK : Abreast W K) (r : Ref) : (unexpired W r).Calm K :=
  .bind (calm_load W hK r _) fun _ ↦
    .ite (fun _ ↦ .bind (calm_call W hK .time) fun _ ↦ calm_load W hK r _) fun _ ↦ .pure _

theorem calm_methodStores (hK : Abreast W K) (r : Ref) : (methodStores W r).Calm K :=
  .bind (calm_asks fun _ _ h ↦ hK.meth h) fun _ ↦
    .ite (fun _ ↦ .pure _) fun _ ↦ .ite (fun _ ↦ calm_unexpired W hK r) fun _ ↦ .pure _

theorem calm_dress (hK : Abreast W K) (path : Str) (r : Ref) (isFile : Bool) :
    (dress W cfg path r isFile).Calm K := by
  apply calm_stat W hK
  intro stat
  refine .bind (calm_push W hK r _) fun _ ↦ .bind (calm_push W hK r _) fun _ ↦ ?_
  refine .bind (calm_call W hK .time) fun _ ↦ .bind (calm_push W hK r _) fun _ ↦ ?_
  refine .bind (calm_push W hK r _) fun _ ↦ .bind (calm_call W hK .time) fun _ ↦ ?_
  exact .bind (calm_push W hK r _) fun _ ↦ calm_push W hK r _

private theorem calm_printEntry (hK : Abreast W K) (r : Ref) : (printEntry W r).Calm K :=
  .bind (calm_load W hK r _) fun _ ↦ .bind (calm_push W hK r _) fun _ ↦ .pure _

theorem calm_onOops (hK : Abreast W K) (e : Status) : (onOops W e : WorkM ω Ref Response).Calm K :=
  .bind (calm_call W hK .time) fun _ ↦ .pure _

end Calm

theorem lockstep_domainSocket (hK : Abreast W K) (path reqBody : Str) :
    (domainSocket W path reqBody).Lockstep K := by
  apply Eff.Lockstep.bind (calm_call W hK .socket).lockstep
  intro fd
  cases fd with
  | none => exact .throw _
  | some fd =>
    refine .bind (calm_call W hK (.getFlags fd)).lockstep fun _ ↦ .ite (fun _ ↦ .throw _) fun _ ↦ ?_
    refine .bind (calm_call W hK (.setFlags fd)).lockstep fun _ ↦ .ite (fun _ ↦ .throw _) fun _ ↦ ?_
    refine .bind (calm_call W hK (.connect fd _)).lockstep fun _ ↦ .ite (fun _ ↦ .throw _) fun _ ↦ ?_
    refine .bind (calm_asks fun s t h ↦ hK.reqHdrs h).lockstep fun _ ↦ ?_
    refine .bind (calm_call W hK (.startClient fd _ _)).lockstep fun _ ↦
      .ite (fun _ ↦ ?_) fun _ ↦ .throw _
    exact .bind (.modify fun _ _ h ↦ hK.setNosch h true) fun _ ↦ .pure _

theorem lockstep_answer (hK : Attuned W K) (r : Ref) : (answer W r).Lockstep K := by
  have hprint {K : Scene ω Ref → Scene ω Ref → Prop} (hK : Abreast W K) (body : Str) :
      Eff.Lockstep K (do return some { hdrs := ← printEntry W r, body : Response }) :=
    .bind (calm_printEntry W hK r).lockstep fun _ ↦ .pure _
  have hfail {K : Scene ω Ref → Scene ω Ref → Prop} (hK : Abreast W K) : Eff.Lockstep K (do
      Eff.modify fun s : Scene ω Ref ↦ { s with uncompressed := none }
      throw .internalServerError : WorkM ω Ref (Option Response)) :=
    .bind (.modify fun _ _ h ↦ hK.setUncompressed h none) fun _ ↦ .throw _
  apply lockstep_asks_bind fun s t h ↦ hK.meth h
  intro meth
  have hK := hK.given Client.meth meth
  have hK' := hK.toAbreast
  refine .ite (fun _ ↦ .bind (calm_push W hK' r _).lockstep fun _ ↦ hprint hK' _) fun hhead ↦ ?_
  apply lockstep_asks_bind fun s t h ↦ (hK.alike h).clAcceptEnc (h.2.1 ▸ hhead)
  intro enc
  have hK := (hK.given Client.clAcceptEnc enc).toAbreast
  refine .ite (fun _ ↦ .bind (calm_load W hK r _).lockstep fun _ ↦ hprint hK _) fun _ ↦ ?_
  refine .ite (fun _ ↦ ?_) fun _ ↦ hprint hK _
  refine .bind (calm_load W hK r _).lockstep fun _ ↦ .bind (calm_call W hK (.malloc _)).lockstep fun _ ↦ ?_
  refine .ite (fun _ ↦ hfail hK) fun _ ↦ ?_
  apply Eff.Lockstep.bind (calm_load W hK r _).lockstep
  intro body
  cases body with
  | none => exact hfail hK
  | some body =>
    refine .bind (.modify fun _ _ h ↦ hK.setUncompressed h (some body)) fun _ ↦ ?_
    exact .bind (calm_push W hK r _).lockstep fun _ ↦ hprint hK _

/-- Works that also agree on the coding of the body write alike. -/
theorem lockstep_putOrPost (hK : Abreast W K)
    (henc : ∀ s t, K s t → s.client.clContentEnc = t.client.clContentEnc) (path reqBody : Str)
    (append : Bool) : (putOrPost W path reqBody append).Lockstep K := by
  refine .bind (calm_asks henc).lockstep fun _ ↦
    .bind (calm_call W hK (.putorpost path reqBody _ append)).lockstep fun err ↦ ?_
  cases err with
  | none => exact .bind (calm_adviseEvict W hK path).lockstep fun _ ↦ .throw _
  | some err =>
    cases err with
    | espipe => exact lockstep_domainSocket W hK path reqBody
    | _ => exact .throw _

theorem lockstep_deleteFile (hK : Abreast W K) (path : Str) : (deleteFile W path).Lockstep K := by
  refine .bind (calm_call W hK (.unlink path)).lockstep fun err ↦ ?_
  cases err with
  | none => exact .bind (calm_adviseEvict W hK path).lockstep fun _ ↦ .throw _
  | some err => cases err <;> exact .throw _

end Filth
