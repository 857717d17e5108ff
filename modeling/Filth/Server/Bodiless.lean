import Filth.Server.Framing
import Filth.Server.Pipelining
import Filth.Server.Sending

/-!
# Responses to HEAD

`prepare_response` sets no body for a request with the method HEAD,
`src/HTTP_2616_Server_Work.cpp:204–208`. The handler for an `HTTP_oops`,
`src/HTTP_Server_Work.cpp:75–85`, does not know the method and sets one, and so does
`async_setresponse` when a domain socket has answered.
-/

namespace Filth

open Base WorkM

/-! ### What is written of a response -/

section HeadersOnly

variable {ω Ref : Type}

/-- Whatever the socket takes and in however many quanta: of the response that is set up nothing
is written behind the headers. -/
def ServerWork.HeadersOnly (w : ServerWork ω Ref) : Prop :=
  ∀ acts, (sendPhase w.out w.outbody w.scene.nosch w.deleteme).AllStates
    (fun s ↦ s.onSocket <+: w.out) (sendPhase w.out w.outbody w.scene.nosch w.deleteme).init acts

/-- The headers taken in one `write`, unless there are none, and then the body. -/
private def takeAll (h b : Str) : List SendAct :=
  [.turn .zero] ++ (if h = [] then [] else [.write (.took h.length)]) ++
    [.ret, .turn .zero, .write (.took b.length)]

private theorem run_takeAll (h : Str) {b : Str} (hb : b ≠ []) (nosch deleteme : Bool) :
    ∃ s, (sendPhase h b nosch deleteme).run (sendPhase h b nosch deleteme).init (takeAll h b) =
      some s ∧ s.onSocket = h ++ b := by
  have hlen : 0 < b.length := List.length_pos_iff.mpr hb
  by_cases hh : h = []
  · subst hh
    simp [takeAll, Machine.run, sendPhase, Sending.value, Sender.afterWruntil, Sending.step, hb, hlen,
      Sender.onSocket]
  · have hlen' : 0 < h.length := List.length_pos_iff.mpr hh
    simp [takeAll, Machine.run, sendPhase, Sending.value, Sender.afterWruntil, Sending.step, hb, hlen,
      Sender.onSocket, hh, hlen']

/-- That is so just when there is no body. -/
theorem ServerWork.headersOnly_iff {w : ServerWork ω Ref} : w.HeadersOnly ↔ w.outbody = [] := by
  constructor
  · intro h
    by_contra hb
    obtain ⟨s, hrun, hall⟩ := run_takeAll w.out hb w.scene.nosch w.deleteme
    have hprefix := Machine.AllStates.last _ (h _) hrun
    rw [hall] at hprefix
    have hlen := hprefix.length_le
    rw [List.length_append] at hlen
    exact hb (List.eq_nil_of_length_eq_zero (by omega))
  · intro hb acts
    refine (Sender.sound_of_run w.out w.outbody w.scene.nosch w.deleteme acts).imp _ fun s hs ↦ ?_
    have horder := hs.exact.inOrder
    rwa [hb, List.append_nil] at horder

end HeadersOnly

/-! ### What a request for headers leads to -/

variable {ω Ref : Type} (W : World ω Ref) (cfg : Config)

/-- The calls that hand a request to a domain socket succeed. -/
def SocketOpens (path : Str) (hdrs : Hdrs) (reqBody : Str) (w : ω) : Prop :=
  ∃ fd, (W.socket w).1 = some fd ∧ (W.getFlags fd (W.socket w).2).1 = true ∧
    let w := (W.getFlags fd (W.socket w).2).2
    (W.setFlags fd w).1 = true ∧
      let w := (W.setFlags fd w).2
      (W.connect fd ((cstr path).take 107) w).1 = true ∧
        (W.startClient fd hdrs reqBody (W.connect fd ((cstr path).take 107) w).2).1 = true

/-- The origin server reads the file, or lists the directory. -/
def FromOrigin (path : Str) (w : ω) : Prop :=
  (∃ r, (W.request path w).1 = .ok r) ∨
    (W.request path w).1 = .error .eisdir ∧ ∃ r, (W.dirtoHTML path (W.request path w).2).1 = .ok r

/-- The origin server finds a socket, which can be talked to. -/
def FromSocket (path : Str) (hdrs : Hdrs) (reqBody : Str) (w : ω) : Prop :=
  (W.request path w).1 = .error .espipe ∧
    SocketOpens W path hdrs reqBody (W.request path w).2

/-- The cache has no entry that will do and the client does not insist on one, so that the origin
server is asked. -/
def AsksOrigin (path : Str) (s : Scene ω Ref) (w : ω) : Prop :=
  ∃ s', cacheGet W path s = (.ok none, s') ∧ s.client.clCacheControl.isset .onlyIfCached = false ∧
    w = s'.world

/-- The request is answered from an entry: one that is cached, one that a file has been read into,
or one that lists a directory. -/
def FromEntry (path : Str) (s : Scene ω Ref) : Prop :=
  (∃ r s', cacheGet W path s = (.ok (some r), s')) ∨ ∃ w, AsksOrigin W path s w ∧ FromOrigin W path w

/-- The request is handed to a domain socket. -/
def HandedOn (path reqBody : Str) (s : Scene ω Ref) : Prop :=
  ∃ w, AsksOrigin W path s w ∧ FromSocket W path s.client.reqHdrs reqBody w

/-- A request that is handed on is not answered from an entry. -/
private theorem not_fromEntry_of_handedOn {path reqBody : Str} {s : Scene ω Ref}
    (h : HandedOn W path reqBody s) : ¬ FromEntry W path s := by
  obtain ⟨w, ⟨s', hmiss, -, rfl⟩, hrequest, -⟩ := h
  rintro (⟨r, s'', hhit⟩ | ⟨w, ⟨s'', hmiss', -, rfl⟩, hfrom⟩)
  · rw [hmiss] at hhit
    cases hhit
  · rw [hmiss] at hmiss'
    cases hmiss'
    rcases hfrom with ⟨r, hr⟩ | ⟨hr, -⟩ <;> rw [hrequest] at hr <;> cases hr

section Head

variable {path reqBody : Str} {s : Scene ω Ref}

/-- For headers only, an entry is printed and nothing else. -/
theorem answer_head (hm : s.client.meth = .head) (r : Ref) :
    ∃ hdrs s', answer W r s = (.ok (some { hdrs, body := [] }), s') := by
  rw [answer, asks_bind, if_pos hm]
  exact ⟨_, _, rfl⟩

/-- The request is handed on where the calls succeed, and an error is thrown elsewhere. -/
private theorem domainSocket_cases (path reqBody : Str) (s : Scene ω Ref) :
    SocketOpens W path s.client.reqHdrs reqBody s.world ∧
        (∃ s', domainSocket W path reqBody s = (.ok none, s')) ∨
      ¬ SocketOpens W path s.client.reqHdrs reqBody s.world ∧
        ∃ e s', domainSocket W path reqBody s = (.error e, s') := by
  unfold domainSocket SocketOpens
  cases hsocket : W.socket s.world with
  | mk o w₁ =>
    rw [call_bind hsocket]
    cases o with
    | none => exact .inr ⟨nofun, _, _, rfl⟩
    | some fd =>
      cases hget : W.getFlags fd w₁ with
      | mk b w₂ =>
        dsimp only
        rw [call_bind hget]
        cases b with
        | false => exact .inr ⟨by simp [hget], _, _, rfl⟩
        | true =>
          cases hset : W.setFlags fd w₂ with
          | mk b w₃ =>
            rw [if_neg (by simp), call_bind hset]
            cases b with
            | false => exact .inr ⟨by simp [hget, hset], _, _, rfl⟩
            | true =>
              cases hconnect : W.connect fd ((cstr path).take 107) w₃ with
              | mk b w₄ =>
                rw [if_neg (by simp), call_bind hconnect]
                cases b with
                | false => exact .inr ⟨by simp [hget, hset, hconnect], _, _, rfl⟩
                | true =>
                  rw [if_neg (by simp), asks_bind]
                  cases hstart : W.startClient fd s.client.reqHdrs reqBody w₄ with
                  | mk b w₅ =>
                    rw [call_bind hstart]
                    cases b with
                    | false => exact .inr ⟨by simp [hget, hset, hconnect, hstart], _, _, rfl⟩
                    | true => exact .inl ⟨by simp [hget, hset, hconnect, hstart], _, rfl⟩

/-- What the origin server makes of a request for headers only. -/
private theorem askOrigin_head (hm : s.client.meth = .head) (path reqBody : Str) :
    FromOrigin W path s.world ∧
        (∃ hdrs s', askOrigin W cfg path reqBody s = (.ok (some { hdrs, body := [] }), s')) ∨
      FromSocket W path s.client.reqHdrs reqBody s.world ∧
        (∃ s', askOrigin W cfg path reqBody s = (.ok none, s')) ∨
      ¬ FromOrigin W path s.world ∧ ¬ FromSocket W path s.client.reqHdrs reqBody s.world ∧
        ∃ e s', askOrigin W cfg path reqBody s = (.error e, s') := by
  unfold askOrigin FromOrigin FromSocket
  cases hrequest : W.request path s.world with
  | mk o w =>
    rw [call_bind hrequest]
    cases o with
    | ok r =>
      obtain ⟨_, s₁, hdress, h₁⟩ := client_of_calm W
        (fun hK ↦ calm_dress W cfg hK.toAbreast path r true) { s with world := w, c := some r }
      obtain ⟨stored, s₂, hput, h₂⟩ := client_of_calm W (fun hK ↦ calm_cachePut W hK path r) s₁
      have hm₂ : s₂.client.meth = .head := by rw [h₂, h₁, hm]
      dsimp only
      rw [setC_bind, Eff.bind_ok hdress, Eff.bind_ok hput, setCached_bind]
      exact .inl ⟨.inl ⟨r, rfl⟩, answer_head W (s := { s₂ with respIsCached := stored }) hm₂ r⟩
    | error err =>
      dsimp only
      rw [setC_bind]
      cases err with
      | eisdir =>
        rw [if_neg nofun, if_neg nofun, if_pos rfl]
        cases hlist : W.dirtoHTML path w with
        | mk page w' =>
          rw [call_bind hlist]
          cases page with
          | ok r =>
            obtain ⟨_, s₁, hdress, h₁⟩ := client_of_calm W
              (fun hK ↦ calm_dress W cfg hK.toAbreast path r false)
              { s with world := w', c := some r }
            have hm₁ : s₁.client.meth = .head := by rw [h₁, hm]
            dsimp only
            rw [setC_bind, Eff.bind_ok hdress, setCached_bind]
            exact .inl ⟨.inr ⟨rfl, r, rfl⟩,
              answer_head W (s := { s₁ with respIsCached := false }) hm₁ r⟩
          | error e => exact .inr (.inr ⟨by simp, by simp, _, _, rfl⟩)
      | espipe =>
        rw [if_neg nofun, if_neg nofun, if_neg nofun, if_pos rfl]
        rcases domainSocket_cases W path reqBody { s with world := w, c := none } with
          ⟨hopens, hnone⟩ | ⟨hno, herror⟩
        · exact .inr (.inl ⟨⟨rfl, hopens⟩, hnone⟩)
        · exact .inr (.inr ⟨by simp, fun h ↦ hno h.2, herror⟩)
      | _ => exact .inr (.inr ⟨by simp, by simp, _, _, rfl⟩)

/-- What a request for headers only leads to: nothing but headers from an entry, nothing yet from
a domain socket, and an error otherwise. -/
theorem getStyle_head (hm : s.client.meth = .head) (path reqBody : Str) :
    FromEntry W path s ∧
        (∃ hdrs s', getStyle W cfg path reqBody s = (.ok (some { hdrs, body := [] }), s')) ∨
      HandedOn W path reqBody s ∧ (∃ s', getStyle W cfg path reqBody s = (.ok none, s')) ∨
      ¬ FromEntry W path s ∧ ¬ HandedOn W path reqBody s ∧
        ∃ e s', getStyle W cfg path reqBody s = (.error e, s') := by
  obtain ⟨hit, s₁, hget, hclient⟩ := client_of_calm W (fun hK ↦ calm_cacheGet W hK path) s
  unfold getStyle
  rw [Eff.bind_ok hget, setCached_bind]
  cases hit with
  | some r =>
    refine .inl ⟨.inl ⟨r, s₁, hget⟩, ?_⟩
    exact answer_head W (s := { s₁ with respIsCached := true }) (hclient ▸ hm) r
  | none =>
    have hmiss : ¬ ∃ r s', cacheGet W path s = (.ok (some r), s') := by
      rintro ⟨r, s', h⟩
      rw [hget] at h
      cases h
    dsimp only
    rw [isset_bind]
    dsimp only
    have hasks (w : ω) : AsksOrigin W path s w ↔
        s₁.client.clCacheControl.isset .onlyIfCached = false ∧ w = s₁.world := by
      unfold AsksOrigin
      rw [hget, ← hclient]
      constructor
      · rintro ⟨s', h, honly, rfl⟩
        cases h
        exact ⟨honly, rfl⟩
      · rintro ⟨honly, rfl⟩
        exact ⟨s₁, rfl, honly, rfl⟩
    cases honly : s₁.client.clCacheControl.isset .onlyIfCached with
    | true =>
      refine .inr (.inr ⟨?_, ?_, _, _, rfl⟩)
      · rintro (h | ⟨w, h, -⟩)
        · exact hmiss h
        · rw [hasks, honly] at h
          exact absurd h.1 nofun
      · rintro ⟨w, h, -⟩
        rw [hasks, honly] at h
        exact absurd h.1 nofun
    | false =>
      rw [if_neg nofun]
      have hw := (hasks s₁.world).mpr ⟨honly, rfl⟩
      have hworld (w : ω) (h : AsksOrigin W path s w) : w = s₁.world := ((hasks w).mp h).2
      have hm₁ : s₁.client.meth = .head := hclient ▸ hm
      rcases askOrigin_head W cfg (s := { s₁ with respIsCached := false }) hm₁ path reqBody with
        ⟨hfrom, hsome⟩ | ⟨hfrom, hnone⟩ | ⟨hno, hno', herror⟩
      · exact .inl ⟨.inr ⟨_, hw, hfrom⟩, hsome⟩
      · exact .inr (.inl ⟨⟨_, hw, hclient ▸ hfrom⟩, hnone⟩)
      · refine .inr (.inr ⟨?_, ?_, herror⟩)
        · rintro (h | ⟨w, h, hfrom⟩)
          · exact hmiss h
          · exact hno (hworld w h ▸ hfrom)
        · rintro ⟨w, h, hfrom⟩
          rw [hworld w h, ← hclient] at hfrom
          exact hno' hfrom

end Head

/-! ### From the request to the response -/

/-- The method of a request that is accepted stands at the beginning of the request line. -/
private theorem Client.find_of_browseReq {v w : Client} (h : browseReq cfg w = (.ok (), v)) :
    Method.find (word w.reqHdrs.reqln).1 = some v.meth := by
  obtain ⟨_, w₁, h₁, h⟩ := Eff.bind_eq_ok h
  have hI : Spared fun v ↦ Method.find (word w.reqHdrs.reqln).1 = some v.meth :=
    ⟨fun h _ _ _ ↦ h, fun h _ ↦ h, fun h _ ↦ h, fun h _ ↦ h, fun h ↦ h⟩
  have hw₁ : Method.find (word w.reqHdrs.reqln).1 = some w₁.meth := by
    unfold browseReqln parsereqln at h₁
    cases hm : Method.find (word w.reqHdrs.reqln).1 with
    | none =>
      rw [hm] at h₁
      cases h₁
    | some m =>
      rw [hm] at h₁
      dsimp only at h₁
      generalize parseuri cfg.maxReqUri (uriOf w.reqHdrs.reqln) w.path w.query = o at h₁
      obtain ⟨r, p, q⟩ := o
      cases r with
      | error e => cases h₁
      | ok u =>
        dsimp only at h₁
        by_cases hv : versionOf w.reqHdrs.reqln = httpVersion
        · rw [if_pos hv] at h₁
          cases h₁
          rfl
        · rw [if_neg hv] at h₁
          cases h₁
  exact (hI.headers (fun _ _ h ↦ h) w₁ hw₁).1 () v h

/-- A work sleeps after a request that has been handed on, and only then. -/
private theorem nosch_respond {s s' : Scene ω Ref} {reqBody : Str} {o : Option Response}
    (hs : s.nosch = false) (h : respond W cfg reqBody s = (.ok o, s')) : s'.nosch = o.isNone := by
  have hsocket (path : Str) : (domainSocket W path reqBody).Ensures (fun s ↦ s.nosch = false)
      (fun o s ↦ s.nosch = o.isNone) fun s ↦ s.nosch = false := by
    have hcall {α : Type} (f : ω → α × ω) :
        (call f : WorkM ω Ref α).Keeps fun s ↦ s.nosch = false := .modifyGet fun _ h ↦ h
    apply Eff.Ensures.bind (hcall W.socket)
    intro fd
    cases fd with
    | none => exact .throw fun _ h ↦ h
    | some fd =>
      refine .bind (hcall _) fun _ ↦ .ite (fun _ ↦ .throw fun _ h ↦ h) fun _ ↦ ?_
      refine .bind (hcall _) fun _ ↦ .ite (fun _ ↦ .throw fun _ h ↦ h) fun _ ↦ ?_
      refine .bind (hcall _) fun _ ↦ .ite (fun _ ↦ .throw fun _ h ↦ h) fun _ ↦ ?_
      refine .bind (keeps_gets _) fun _ ↦ .bind (hcall _) fun _ ↦
        .ite (fun _ ↦ ?_) fun _ ↦ .throw fun _ h ↦ h
      exact .bind (.modify (Q := fun _ s ↦ s.nosch = true) fun _ _ ↦ rfl) fun _ ↦ .pure fun _ h ↦ h
  have hoops (e : Status) : Eff.Ensures (fun s : Scene ω Ref ↦ s.nosch = false)
      (do return some (← onOops W e)) (fun o s ↦ s.nosch = o.isNone) fun s ↦ s.nosch = false :=
    .bind (keeps_onOops W (steady_awake W) e) fun _ ↦ .pure fun _ h ↦ h
  rw [respond_eq] at h
  cases hb : Client.browseReq cfg s.client with
  | mk r w =>
    rw [hb] at h
    cases r with
    | error e => exact (hoops e { s with client := w } hs).1 o s' h
    | ok u =>
      refine ((Eff.Ensures.tryCatch (ensures_dispatch W cfg (route_awake W) (fun _ h ↦ h)
        (fun _ _ h ↦ h) (fun _ ↦ hsocket w.path) (fun r ↦ ?_) w.meth) hoops)
        { s with client := w } hs).1 o s' h
      refine (ensures_answer_some W r).mono (fun _ h ↦ h) (fun o s h ↦ ?_) fun _ h ↦ h
      rw [h.2, Option.isNone_eq_false_iff.mpr h.1]

/-- A status is the body of the response to an error. -/
private theorem Status.str_ne_nil (e : Status) : e.str ≠ [] := by cases e <;> decide

/-- The response to an error has a body. -/
theorem respond_of_error {s s' : Scene ω Ref} {reqBody : Str} {e : Status}
    (h : prepareResponse W cfg reqBody s = (.error e, s')) :
    ∃ r s'', respond W cfg reqBody s = (.ok (some r), s'') ∧ r.body ≠ [] := by
  unfold respond
  rw [Eff.tryCatch_error h]
  exact ⟨_, _, rfl, e.str_ne_nil⟩

namespace ServerWork

variable (cfg : Settings) {w : ServerWork ω Ref} {a : Chances ω}

/-- The headers of the request are accepted, and then something is so of the path that they name
and of the scene. -/
def Understood (w : ServerWork ω Ref) (a : Chances ω) (P : Str → Scene ω Ref → Prop) : Prop :=
  ∃ v, Client.browseReq cfg.toConfig w.scene.client = (.ok (), v) ∧
    P v.path { w.scene with world := a.world, client := v }

private theorem understood_iff {r : Except Status Unit} {v : Client}
    (hb : Client.browseReq cfg.toConfig w.scene.client = (r, v)) (P : Str → Scene ω Ref → Prop) :
    w.Understood cfg a P ↔
      r = .ok () ∧ P v.path { w.scene with world := a.world, client := v } := by
  unfold Understood
  rw [hb]
  constructor
  · rintro ⟨v', hv, hP⟩
    cases hv
    exact ⟨rfl, hP⟩
  · rintro ⟨rfl, hP⟩
    exact ⟨v, rfl, hP⟩

/-- There is nothing of a response yet. -/
structure Unanswered (w : ServerWork ω Ref) : Prop where
  outhdrsDone : w.outhdrsDone = false
  outbody : w.outbody = []
  nosch : w.scene.nosch = false

/-- What a request for headers only leads to: a response without a body, a response to come, or
an error as the body. -/
theorem dropdown_head (hw : w.Unanswered) (hm : Method.find (word w.inhdrs.reqln).1 = some .head) :
    w.Understood cfg a (FromEntry W) ∧ (w.dropdown W cfg a).1.outbody = [] ∧
        (w.dropdown W cfg a).1.scene.nosch = false ∨
      w.Understood cfg a (fun path s ↦ HandedOn W path w.inbody s) ∧
        (w.dropdown W cfg a).1.outbody = [] ∧ (w.dropdown W cfg a).1.scene.nosch = true ∨
      ¬ w.Understood cfg a (FromEntry W) ∧
        ¬ w.Understood cfg a (fun path s ↦ HandedOn W path w.inbody s) ∧
        (w.dropdown W cfg a).1.outbody ≠ [] := by
  obtain ⟨o, scene, ho⟩ := respond_ok W cfg.toConfig w.inbody { w.scene with world := a.world }
  have hnosch : scene.nosch = o.isNone :=
    nosch_respond W cfg.toConfig (s := { w.scene with world := a.world }) hw.nosch ho
  have hbody : (w.dropdown W cfg a).1.outbody = ((o.map Response.body).getD []) := by
    rw [dropdown]
    simp only [report, inhdrs, ho]
    cases o with
    | none => exact hw.outbody
    | some r => rfl
  have hscene : (w.dropdown W cfg a).1.scene = scene := by
    rw [dropdown]
    simp only [report, inhdrs, ho]
    cases o <;> rfl
  rw [hbody, hscene, hnosch]
  have hprepare := prepareResponse_eq W cfg.toConfig w.inbody { w.scene with world := a.world }
  cases hb : Client.browseReq cfg.toConfig w.scene.client with
  | mk r v =>
    simp only [hb] at hprepare
    rw [understood_iff cfg hb, understood_iff cfg hb]
    cases r with
    | error e =>
      obtain ⟨r, s', hr, hne⟩ := respond_of_error W cfg.toConfig hprepare
      rw [ho] at hr
      cases hr
      exact .inr (.inr ⟨by simp, by simp, hne⟩)
    | ok u =>
      have hmeth : v.meth = .head := by
        have hfind := Client.find_of_browseReq cfg.toConfig hb
        exact (Option.some.inj (hm.symm.trans hfind)).symm
      dsimp only at hprepare
      rw [hmeth, dispatch] at hprepare
      rcases getStyle_head W cfg.toConfig (s := { w.scene with world := a.world, client := v }) hmeth
        v.path w.inbody with ⟨hfrom, hdrs, s', hs'⟩ | ⟨hfrom, s', hs'⟩ | ⟨hno, hno', e, s', hs'⟩
      · rw [hs'] at hprepare
        rw [respond, Eff.tryCatch_ok hprepare] at ho
        cases ho
        exact .inl ⟨⟨rfl, hfrom⟩, rfl, rfl⟩
      · rw [hs'] at hprepare
        rw [respond, Eff.tryCatch_ok hprepare] at ho
        cases ho
        exact .inr (.inl ⟨⟨rfl, hfrom⟩, rfl, rfl⟩)
      · rw [hs'] at hprepare
        obtain ⟨r, s', hr, hne⟩ := respond_of_error W cfg.toConfig hprepare
        rw [ho] at hr
        cases hr
        exact .inr (.inr ⟨fun h ↦ hno h.2, fun h ↦ hno' h.2, hne⟩)

/-- A request for headers only gets no more than headers: neither in the response that is set up,
nor in the one that a domain socket sends if the request is handed on to it. -/
structure GetsHeadersOnly (w : ServerWork ω Ref) (a : Chances ω) (resphdrs : Hdrs) (respbody : Str)
    (granted : Bool) : Prop where
  now : (w.dropdown W cfg a).1.HeadersOnly
  later (h : (w.dropdown W cfg a).1.scene.nosch = true) :
    ((w.dropdown W cfg a).1.asyncSetresponse resphdrs respbody granted).HeadersOnly

/-- The body that a domain socket has sent is empty, or it cannot be copied. -/
private theorem outbody_asyncSetresponse (w : ServerWork ω Ref) (resphdrs : Hdrs) (respbody : Str)
    (granted : Bool) : (w.asyncSetresponse resphdrs respbody granted).outbody = [] ↔
      granted = false ∨ respbody = [] := by
  change (if granted then cstr respbody ++
    List.replicate (respbody.length - (cstr respbody).length) '\x00' else []) = [] ↔ _
  have hle : (cstr respbody).length ≤ respbody.length :=
    (List.takeWhile_sublist _).length_le
  cases granted with
  | false => simp
  | true =>
    simp only [if_true, ← List.length_eq_zero_iff, List.length_append, List.length_replicate]
    simp only [Bool.true_eq_false, false_or]
    omega

/-- That is so just when it is answered from an entry, or handed on to a domain socket that sends no
body. -/
theorem getsHeadersOnly_iff (hw : w.Unanswered)
    (hm : Method.find (word w.inhdrs.reqln).1 = some .head) (resphdrs : Hdrs) (respbody : Str)
    (granted : Bool) : w.GetsHeadersOnly W cfg a resphdrs respbody granted ↔
      w.Understood cfg a (FromEntry W) ∨
        w.Understood cfg a (fun path s ↦ HandedOn W path w.inbody s) ∧
          (granted = false ∨ respbody = []) := by
  rw [← outbody_asyncSetresponse (w.dropdown W cfg a).1 resphdrs respbody granted,
    ← headersOnly_iff]
  rcases dropdown_head W cfg hw hm with ⟨hfrom, hbody, hawake⟩ | ⟨hfrom, hbody, hasleep⟩ |
    ⟨hno, hno', hbody⟩
  · refine iff_of_true ⟨headersOnly_iff.mpr hbody, fun h ↦ ?_⟩ (.inl hfrom)
    rw [hawake] at h
    cases h
  · constructor
    · exact fun h ↦ .inr ⟨hfrom, h.later hasleep⟩
    · rintro (hentry | ⟨-, hlater⟩)
      · obtain ⟨v, hv, hentry⟩ := hentry
        obtain ⟨v', hv', hfrom⟩ := hfrom
        cases hv.symm.trans hv'
        exact absurd hentry (not_fromEntry_of_handedOn W hfrom)
      · exact ⟨headersOnly_iff.mpr hbody, fun _ ↦ hlater⟩
  · refine iff_of_false (fun h ↦ hbody (headersOnly_iff.mp h.now)) ?_
    rintro (h | ⟨h, -⟩)
    · exact hno h
    · exact hno' h

/-! ### Where requests are answered -/

/-- A turn has answered a request that there was nothing of a response to before, or it has not
answered any and leaves nothing of a response. -/
def Answers (a : Chances ω) (o : ServerWork ω Ref × Ending) : Prop :=
  (∃ v : ServerWork ω Ref, v.Unanswered ∧ o = v.dropdown W cfg a) ∨ o.1.Unanswered

theorem Unanswered.readBody (hw : w.Unanswered) : Answers W cfg a (w.readBody W cfg a) := by
  unfold ServerWork.readBody
  dsimp only
  split
  · refine .inl ⟨_, ?_, rfl⟩
    exact ⟨hw.1, hw.2, hw.3⟩
  · split <;> exact .inr ⟨hw.1, hw.2, hw.3⟩

theorem Unanswered.readInbuf (hw : w.Unanswered) : Answers W cfg a (w.readInbuf W cfg a) := by
  unfold ServerWork.readInbuf
  split
  · exact .inr hw
  · refine .inl ⟨_, ?_, rfl⟩
    exact ⟨hw.1, hw.2, hw.3⟩
  · split
    · exact .inr hw
    · dsimp only
      split
      · refine .inl ⟨_, ?_, rfl⟩
        exact ⟨hw.1, hw.2, hw.3⟩
      · exact Unanswered.readBody W cfg ⟨hw.1, hw.2, hw.3⟩

theorem Unanswered.readHdrs (hw : w.Unanswered) : Answers W cfg a (w.readHdrs W cfg a) := by
  unfold ServerWork.readHdrs
  dsimp only
  split
  · exact .inr ⟨hw.1, hw.2, hw.3⟩
  · generalize parse cfg.maxLineLen _ _ = o
    cases o with
    | error e => exact .inr ⟨hw.1, hw.2, hw.3⟩
    | ok o =>
      unfold afterParse
      dsimp only
      split
      · exact Unanswered.readInbuf W cfg ⟨hw.1, hw.2, hw.3⟩
      · exact .inr ⟨hw.1, hw.2, hw.3⟩

/-- A turn of a work that reads, or that has just written the end of a response. -/
private theorem answers_operator (hw : w.m = .read → w.Unanswered) :
    Answers W cfg a (w.operator W cfg a) ∨ (w.operator W cfg a).1.m = .write := by
  unfold operator
  split
  · next hm =>
    split
    · exact .inl (Unanswered.readBody W cfg (hw hm))
    · exact .inl (Unanswered.readHdrs W cfg (hw hm))
  · next hm =>
    cases hf : w.finishes a with
    | false =>
      obtain ⟨out, done, bytes, e, -, heq⟩ := writeOut_of_not_finishes W cfg hm hf
      rw [heq]
      exact .inr hm
    | true =>
      have hawake : w.scene.nosch = false := by
        simp only [finishes, Bool.decide_and, Bool.and_eq_true, decide_eq_true_eq,
          Bool.not_eq_true'] at hf
        exact hf.2.2.2
      have hfresh : ((w.finished a).refreshed W a).Unanswered := ⟨rfl, rfl, hawake⟩
      rw [writeOut_of_finishes W cfg hf]
      split
      · rw [keepAlive_eq]
        split
        · exact .inl (Unanswered.readHdrs W cfg hfresh)
        · exact .inl (.inr ⟨hfresh.1, hfresh.2, hfresh.3⟩)
      · exact .inr hm

/-- In every run, a work that reads has nothing of a response, so that every request is answered
by a work that has not answered it before. -/
theorem unanswered_of_run (world : ω) (acts : List (Act ω)) :
    (assemblyLine W cfg (.new world)).AllStates
      (fun c : Conn ω Ref ↦ ∀ w armed, c = .live w armed → w.m = .read → w.Unanswered)
      (.live (.new world) true) acts := by
  refine Machine.allStates_of_step _ (fun c act c' hc hstep w' armed' hc' hm ↦ ?_) ?_ acts
  · rcases assemblyLine_step W cfg hstep with ⟨w, a, rfl, -, rfl⟩ |
      ⟨w, armed, hdrs, body, granted, rfl, -, -, rfl⟩
    · have hwork : (w.operator W cfg a).1 = w' := by
        rw [← Ending.work_settle (w.operator W cfg a).1 (w.operator W cfg a).2, hc']
        rfl
      rcases answers_operator W cfg (a := a) (hc w true rfl) with (⟨v, -, heq⟩ | h) | h
      · obtain ⟨scene, hdrs, body, hdrop, -⟩ := dropdown_eq W cfg v a
        rw [heq, hdrop] at hwork
        rw [← hwork] at hm
        cases hm
      · rwa [hwork] at h
      · rw [hwork, hm] at h
        cases h
    · cases hc'
      cases hm
  · rintro w armed heq -
    cases heq
    exact ⟨rfl, rfl, rfl⟩

/-- A request for the headers of a file that is not there. -/
def headMissing : ServerWork Unit Unit :=
  (new ()).parsed true (.new []) (hdrsOf ["HEAD /a HTTP/1.1".toList])

/-- A turn in which nothing happens. -/
def idle : Chances Unit :=
  { sizes := [], writeStop := .clear, chunks := [], readStop := .clear, bodyChunks := []
    bodyStop := .clear, resetWorld := (), world := () }

theorem getsHeadersOnly_iff_missing :
    headMissing.GetsHeadersOnly (.inert .blank) .lax idle .empty [] true ↔
      headMissing.Understood .lax idle (FromEntry (.inert .blank)) ∨
        headMissing.Understood .lax idle
            (fun path s ↦ HandedOn (.inert .blank) path headMissing.inbody s) ∧
          (true = false ∨ ([] : Str) = []) :=
  getsHeadersOnly_iff (.inert .blank) .lax ⟨rfl, rfl, rfl⟩ (by decide) .empty [] true

/-- The response to such a request has a body. -/
theorem not_getsHeadersOnly_missing :
    (headMissing.dropdown (.inert .blank) .lax idle).1.outbody = "Not_Found".toList ∧
      ¬ headMissing.GetsHeadersOnly (.inert .blank) .lax idle .empty [] true := by
  have hbody : (headMissing.dropdown (.inert .blank) .lax idle).1.outbody =
      "Not_Found".toList := by decide
  refine ⟨hbody, fun h ↦ ?_⟩
  have hnil := headersOnly_iff.mp h.now
  rw [hbody] at hnil
  exact absurd hnil (by decide)

end ServerWork
end Filth
