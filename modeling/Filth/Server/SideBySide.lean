import Filth.Server.Abreast
import Filth.Server.Browsing

/-!
# Whole requests side by side

A lookup also changes the books on references, which no request reads. Two works that
understand a request alike come to the same response and leave the same world.
-/

namespace Filth

open Base WorkM

variable {ω Ref : Type} (W : World ω Ref) (cfg : Config)

/-- The methods that look into the cache. -/
def Method.reads (m : Method) : Bool := m ∈ [.get, .head, .options, .trace]

/-- The methods that bring a body. -/
def Method.writes (m : Method) : Bool := m ∈ [.put, .post]

/-- The relation does not look at the books on references either. -/
structure Unbooked (W : World ω Ref) (K : Scene ω Ref → Scene ω Ref → Prop) : Prop
    extends Attuned W K where
  setCached {s t} : K s t → ∀ b, K { s with respIsCached := b } { t with respIsCached := b }
  setRefs {s t} : K s t → ∀ f : List Str → List Str,
    K { s with refs := f s.refs } { t with refs := f t.refs }

section Unbooked

variable {K : Scene ω Ref → Scene ω Ref → Prop}

private theorem calm_get (hK : Unbooked W K) (path : Str) : (get W path).Calm K := by
  apply Eff.Calm.modifyGet
  intro s t h
  have hmove := hK.setWorld (hK.setRefs h fun refs ↦
    if (W.get path t.world).1.isSome then path :: refs else refs) (.get path s.world)
  rw [hK.world h] at hmove ⊢
  exact ⟨rfl, hmove⟩

private theorem calm_put (hK : Unbooked W K) (path : Str) (r : Ref) (sz : Nat) :
    (put W path r sz).Calm K := by
  apply Eff.Calm.modifyGet
  intro s t h
  have hmove := hK.setWorld (hK.setRefs h fun refs ↦
    if (W.put path r sz t.world).1 then path :: refs else refs) (.put path r sz s.world)
  rw [hK.world h] at hmove ⊢
  exact ⟨rfl, hmove⟩

private theorem calm_unget (hK : Unbooked W K) (path : Str) : (unget W path).Calm K := by
  apply Eff.Calm.modify
  intro s t h
  have hmove := hK.setWorld (hK.setRefs h fun refs ↦ refs.erase path) (.unget path s.world)
  rw [hK.world h] at hmove ⊢
  exact hmove

private theorem calm_setCached (hK : Unbooked W K) (b : Bool) :
    (setCached b : WorkM ω Ref Unit).Calm K := .modify fun _ _ h ↦ hK.setCached h b

private theorem calm_considerEntry (hK : Unbooked W K) (path : Str) (r : Ref) :
    (considerEntry W path r).Calm K := by
  have hK' := hK.toAbreast
  refine .bind (calm_setC W hK' _) fun _ ↦ .bind (calm_responseIsFresh W hK' r) fun fresh ↦ ?_
  refine .bind (calm_acceptable W hK.toAttuned path r fresh) fun _ ↦ .ite (fun _ ↦ ?_) fun _ ↦ ?_
  · exact .bind (calm_acceptEntry W hK' path r fresh) fun _ ↦ .pure _
  · exact .bind (calm_unget W hK path) fun _ ↦ .pure _

theorem calm_cacheGet (hK : Unbooked W K) (path : Str) : (cacheGet W path).Calm K := by
  refine .bind (calm_isset W hK.toAbreast _) fun _ ↦ .ite (fun _ ↦ .pure _) fun _ ↦ ?_
  apply Eff.Calm.bind (calm_get W hK path)
  intro hit
  cases hit with
  | none => exact .pure _
  | some r => exact calm_considerEntry W hK path r

theorem calm_cachePut (hK : Unbooked W K) (path : Str) (r : Ref) : (cachePut W path r).Calm K := by
  have hK' := hK.toAbreast
  refine .bind (calm_methodStores W hK' r) fun _ ↦ .ite (fun _ ↦ .pure _) fun _ ↦ ?_
  refine .bind (calm_isset W hK' _) fun _ ↦ .ite (fun _ ↦ .pure _) fun _ ↦ ?_
  exact .bind (calm_load W hK' r _) fun _ ↦ calm_put W hK path r _

private theorem lockstep_askOrigin (hK : Unbooked W K) (path reqBody : Str) :
    (askOrigin W cfg path reqBody).Lockstep K := by
  have hK' := hK.toAbreast
  apply Eff.Lockstep.bind (calm_call W hK' (.request path)).lockstep
  intro result
  cases result with
  | ok r =>
    refine .bind (calm_setC W hK' _).lockstep fun _ ↦ ?_
    refine .bind (calm_dress W cfg hK' path r true).lockstep fun _ ↦ ?_
    refine .bind (calm_cachePut W hK path r).lockstep fun stored ↦ ?_
    exact .bind (calm_setCached W hK stored).lockstep fun _ ↦ lockstep_answer W hK.toAttuned r
  | error err =>
    refine .bind (calm_setC W hK' _).lockstep fun _ ↦ ?_
    refine .ite (fun _ ↦ .throw _) fun _ ↦ .ite (fun _ ↦ .throw _) fun _ ↦ ?_
    refine .ite (fun _ ↦ ?_) fun _ ↦
      .ite (fun _ ↦ lockstep_domainSocket W hK' path reqBody) fun _ ↦ .throw _
    apply Eff.Lockstep.bind (calm_call W hK' (.dirtoHTML path)).lockstep
    intro page
    cases page with
    | ok r =>
      refine .bind (calm_setC W hK' _).lockstep fun _ ↦ ?_
      refine .bind (calm_dress W cfg hK' path r false).lockstep fun _ ↦ ?_
      exact .bind (calm_setCached W hK false).lockstep fun _ ↦ lockstep_answer W hK.toAttuned r
    | error _ => exact .throw _

private theorem lockstep_getStyle (hK : Unbooked W K) (path reqBody : Str) :
    (getStyle W cfg path reqBody).Lockstep K := by
  apply Eff.Lockstep.bind (calm_cacheGet W hK path).lockstep
  intro hit
  apply Eff.Lockstep.bind (calm_setCached W hK hit.isSome).lockstep
  intro _
  cases hit with
  | some r => exact lockstep_answer W hK.toAttuned r
  | none =>
    refine .bind (calm_isset W hK.toAbreast _).lockstep fun _ ↦ .ite (fun _ ↦ .throw _) fun _ ↦ ?_
    exact lockstep_askOrigin W cfg hK path reqBody

/-- Whatever the method, requests that are alike are handled alike; those that write have to
agree on the coding of the body as well. -/
theorem lockstep_dispatch (hK : Abreast W K) (meth : Method)
    (hreads : meth.reads → Unbooked W K)
    (hwrites : meth.writes → ∀ s t, K s t → s.client.clContentEnc = t.client.clContentEnc)
    (path reqBody : Str) : (dispatch W cfg meth path reqBody).Lockstep K := by
  cases meth with
  | connect => exact .throw _
  | post => exact lockstep_putOrPost W hK (hwrites rfl) path reqBody true
  | put => exact lockstep_putOrPost W hK (hwrites rfl) path reqBody false
  | delete => exact lockstep_deleteFile W hK path
  | get => exact lockstep_getStyle W cfg (hreads rfl) path reqBody
  | head => exact lockstep_getStyle W cfg (hreads rfl) path reqBody
  | options => exact lockstep_getStyle W cfg (hreads rfl) path reqBody
  | trace => exact lockstep_getStyle W cfg (hreads rfl) path reqBody

end Unbooked

/-- What follows the reading of the headers. -/
theorem respond_eq (reqBody : Str) (s : Scene ω Ref) : respond W cfg reqBody s =
    match Client.browseReq cfg s.client with
    | (.error e, w) => (do return some (← onOops W e) : WorkM ω Ref _) { s with client := w }
    | (.ok (), w) =>
      tryCatch (dispatch W cfg w.meth w.path reqBody) (fun e ↦ do return some (← onOops W e))
        { s with client := w } := by
  have hprep := prepareResponse_eq W cfg reqBody s
  cases hb : Client.browseReq cfg s.client with
  | mk r w =>
    rw [hb] at hprep
    cases r with
    | error e => exact Eff.tryCatch_error hprep
    | ok u =>
      dsimp only at hprep ⊢
      unfold respond
      cases hd : dispatch W cfg w.meth w.path reqBody { s with client := w } with
      | mk r s' =>
        rw [hd] at hprep
        cases r with
        | ok a => rw [Eff.tryCatch_ok hprep, Eff.tryCatch_ok hd]
        | error e => rw [Eff.tryCatch_error hprep, Eff.tryCatch_error hd]

/-- A scene is beside itself, and what is said of the work alone stays true. -/
theorem unbooked_client (b : Client × Status) :
    Unbooked W fun s t : Scene ω Ref ↦ s = t ∧ (s.client, s.stat) = b where
  world h := h.1 ▸ rfl
  stat h := h.1 ▸ rfl
  reqHdrs h := h.1 ▸ rfl
  meth h := h.1 ▸ rfl
  flags h := h.1 ▸ rfl
  alike h := h.1 ▸ .refl _
  setWorld h _ := ⟨h.1 ▸ rfl, h.2⟩
  setC h _ := ⟨h.1 ▸ rfl, h.2⟩
  setUncompressed h _ := ⟨h.1 ▸ rfl, h.2⟩
  setNosch h _ := ⟨h.1 ▸ rfl, h.2⟩
  setCached h _ := ⟨h.1 ▸ rfl, h.2⟩
  setRefs h _ := ⟨h.1 ▸ rfl, h.2⟩

/-- The same for what is said of the world alone, if the callees keep it. -/
private theorem unbooked_world {I : ω → Prop} (hI : ∀ w w', W.Moves w w' → I w → I w') :
    Unbooked W fun s t : Scene ω Ref ↦ s = t ∧ I s.world where
  world h := h.1 ▸ rfl
  stat h := h.1 ▸ rfl
  reqHdrs h := h.1 ▸ rfl
  meth h := h.1 ▸ rfl
  flags h := h.1 ▸ rfl
  alike h := h.1 ▸ .refl _
  setWorld h hmove := ⟨h.1 ▸ rfl, hI _ _ hmove h.2⟩
  setC h _ := ⟨h.1 ▸ rfl, h.2⟩
  setUncompressed h _ := ⟨h.1 ▸ rfl, h.2⟩
  setNosch h _ := ⟨h.1 ▸ rfl, h.2⟩
  setCached h _ := ⟨h.1 ▸ rfl, h.2⟩
  setRefs h _ := ⟨h.1 ▸ rfl, h.2⟩

/-- A calm program returns and leaves what the request says as it is. -/
theorem client_of_calm {α : Type} {x : WorkM ω Ref α} (h : ∀ {K}, Unbooked W K → x.Calm K)
    (s : Scene ω Ref) : ∃ a s', x s = (.ok a, s') ∧ s'.client = s.client := by
  obtain ⟨a, s', hx, hs⟩ := Eff.Calm.keeps (fun b ↦ h (unbooked_client W b)) s
  exact ⟨a, s', hx, congrArg Prod.fst hs⟩

/-- What holds when the headers have been read, and what no callee breaks, holds at the end. -/
theorem serve_keeps {J : Scene ω Ref → Prop} (hJ : Unbooked W fun s t ↦ s = t ∧ J s)
    (s : Scene ω Ref) (q : Request ω)
    (h : J { s with client := (Client.browseReq cfg { s.client with reqHdrs := q.hdrs }).2,
                    world := q.world }) :
    J (serve W cfg s q).2 := by
  have hoops (e : Status) :
      (do return some (← onOops W e) : WorkM ω Ref _).Lockstep fun s t ↦ s = t ∧ J s :=
    .bind (calm_onOops W hJ.toAbreast e).lockstep fun _ ↦ .pure _
  rw [serve, respond_eq]
  dsimp only
  cases hb : Client.browseReq cfg { s.client with reqHdrs := q.hdrs } with
  | mk r w =>
    rw [hb] at h
    cases r with
    | error e => exact (hoops e _ _ ⟨rfl, h⟩).2.2
    | ok u =>
      have hdispatch := lockstep_dispatch W cfg hJ.toAbreast w.meth (fun _ ↦ hJ)
        (fun _ s t h ↦ h.1 ▸ rfl) w.path q.body
      exact (Eff.Lockstep.tryCatch hdispatch hoops _ _ ⟨rfl, h⟩).2.2

/-- Handling a request changes what the work knows only by reading the headers. -/
theorem serve_client (s : Scene ω Ref) (q : Request ω) :
    ((serve W cfg s q).2.client, (serve W cfg s q).2.stat) =
      ((Client.browseReq cfg { s.client with reqHdrs := q.hdrs }).2, s.stat) :=
  serve_keeps W cfg (unbooked_client W _) s q rfl

/-- What no callee breaks, no request breaks. -/
theorem serve_moves {I : ω → Prop} (hI : ∀ w w', W.Moves w w' → I w → I w') (s : Scene ω Ref)
    {q : Request ω} (h : I q.world) : I (serve W cfg s q).2.world :=
  serve_keeps W cfg (unbooked_world W hI) s q h

/-- Nor does a reset. -/
theorem reset_moves {I : ω → Prop} (hI : ∀ w w', W.Moves w w' → I w → I w') {s : Scene ω Ref}
    (h : I s.world) : I (reset W s).world := by
  unfold reset
  dsimp only
  split
  · exact hI _ _ (.unget s.client.path s.world) h
  · split
    · exact hI _ _ (.delete _ s.world) h
    · exact h

/-- What comes of a request: the response, and the world it leaves. -/
def outcome (s : Scene ω Ref) (q : Request ω) : Except Status (Option Response) × ω :=
  ((serve W cfg s q).1, (serve W cfg s q).2.world)

/-- Side by side, as far as a request with the given method looks. -/
structure SideBySide (m : Method) (s t : Scene ω Ref) : Prop where
  world : s.world = t.world
  stat : s.stat = t.stat
  reqHdrs : s.client.reqHdrs = t.client.reqHdrs
  meth : s.client.meth = t.client.meth
  flags : s.client.clCacheControl.flags = t.client.clCacheControl.flags
  alike : m.reads → Alike s.client t.client
  clContentEnc : m.writes → s.client.clContentEnc = t.client.clContentEnc

private theorem abreast_sideBySide (m : Method) :
    Abreast W fun s t : Scene ω Ref ↦ SideBySide m s t where
  world h := h.world
  stat h := h.stat
  reqHdrs h := h.reqHdrs
  meth h := h.meth
  flags h := h.flags
  setWorld h _ := { h with world := rfl }
  setC h _ := { h with }
  setUncompressed h _ := { h with }
  setNosch h _ := { h with }

private theorem unbooked_sideBySide {m : Method} (hm : m.reads) :
    Unbooked W fun s t : Scene ω Ref ↦ SideBySide m s t where
  toAbreast := abreast_sideBySide W m
  alike h := h.alike hm
  setCached h _ := { h with }
  setRefs h _ := { h with }

/-- Works that understand a request alike handle it alike. -/
theorem outcome_congr {s t : Scene ω Ref} {q : Request ω} {w v : Client} (hstat : s.stat = t.stat)
    (hw : Client.browseReq cfg { s.client with reqHdrs := q.hdrs } = (.ok (), w))
    (hv : Client.browseReq cfg { t.client with reqHdrs := q.hdrs } = (.ok (), v))
    (hsame : Client.SameRequest w v) (hflags : w.clCacheControl.flags = v.clCacheControl.flags)
    (halike : w.meth.reads → Alike w v) (henc : w.meth.writes → w.clContentEnc = v.clContentEnc) :
    outcome W cfg s q = outcome W cfg t q := by
  have hside : SideBySide w.meth { s with client := w, world := q.world }
      { t with client := v, world := q.world } :=
    ⟨rfl, hstat, hsame.1, hsame.2.1, hflags, halike, henc⟩
  have hK : Abreast W fun s t : Scene ω Ref ↦ SideBySide w.meth s t := abreast_sideBySide W w.meth
  have hoops (e : Status) : (do return some (← onOops W e) : WorkM ω Ref _).Lockstep
      fun s t ↦ SideBySide w.meth s t :=
    .bind (calm_onOops W hK e).lockstep fun _ ↦ .pure _
  obtain ⟨hr, hend⟩ := Eff.Lockstep.tryCatch
    (lockstep_dispatch W cfg hK w.meth (unbooked_sideBySide W) (fun hm s t h ↦ h.clContentEnc hm)
      w.path q.body) hoops _ _ hside
  unfold outcome serve
  rw [respond_eq, respond_eq]
  dsimp only
  rw [hw, hv]
  dsimp only
  rw [← hsame.2.1, ← hsame.2.2]
  exact Prod.ext hr hend.world

end Filth
