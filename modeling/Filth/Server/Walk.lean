import Filth.Server.Browsing
import Filth.Server.Prepare

/-!
# What a request keeps on its way

What every call of a request keeps, and every change it makes to an entry, holds when the
response is there or an error has been thrown. The answer itself, which sets the flags of an
entry and prints it, is left to those who want to know something about it.
-/

namespace Filth

open Base WorkM

/-- The calls of a request that may be made while it has an entry at hand. -/
inductive World.Minor {ω Ref : Type} (W : World ω Ref) : ω → ω → Prop
  | time (w) : W.Minor w (W.time w).2
  | mtime (path w) : W.Minor w (W.mtime path w).2
  | put (path r sz w) : W.Minor w (W.put path r sz w).2
  | adviseEvict (path w) : W.Minor w (W.adviseEvict path w)
  | malloc (n w) : W.Minor w (W.malloc n w).2

variable {ω Ref : Type} (W : World ω Ref) (cfg : Config)

/-- What requests push to an entry before they print it: headers that do not frame the body, a
status, and the time of expiration. -/
inductive Mild : (CacheEntry → CacheEntry) → Prop
  | age (n : Int) : Mild fun e ↦ e.pushHeader .age (decimalInt n)
  | warning : Mild fun e ↦
      e.pushHeader .warning ("110 ".toList ++ packageName ++ " \"Response is stale\"".toList)
  | status (stat : Status) : Mild fun e ↦ e.pushStatus stat
  | type (path : Str) (isFile : Bool) : Mild fun e ↦
      e.pushHeader .contentType (if isFile then W.mime path else "text/html".toList)
  | date (now : Int) : Mild fun e ↦ e.pushHeader .date (W.date now)
  | modified (isFile : Bool) : Mild fun e ↦
      if isFile then e.pushHeader .lastModified (W.date e.lastModified) else e
  | expire (t : Int) : Mild fun e ↦ { e with useExpires := true, expiresValue := t }
  | expires : Mild fun e ↦ e.pushHeader .expires (W.date e.expiresValue)

/-- A property of scenes that minor calls keep, and that the bookkeeping of a request does not
touch. -/
structure Steady (I : Scene ω Ref → Prop) : Prop where
  minor {s world} : I s → W.Minor s.world world → I { s with world }
  setC {s} : I s → ∀ c, I { s with c }
  setUncompressed {s} : I s → ∀ b, I { s with uncompressed := b }
  setCached {s} : I s → ∀ b, I { s with respIsCached := b }
  setRefs {s} : I s → ∀ refs, I { s with refs }

/-- A property of scenes that mild changes of an entry keep. -/
def Yielding (r : Ref) (I : Scene ω Ref → Prop) : Prop :=
  ∀ s f, I s → Mild W f → I { s with world := W.store r (f (W.load r s.world)) s.world }

variable {I : Scene ω Ref → Prop} {α : Type}

private theorem Steady.and {J : Scene ω Ref → Prop} (hI : Steady W I) (hJ : Steady W J) :
    Steady W fun s ↦ I s ∧ J s where
  minor h hm := ⟨hI.minor h.1 hm, hJ.minor h.2 hm⟩
  setC h c := ⟨hI.setC h.1 c, hJ.setC h.2 c⟩
  setUncompressed h b := ⟨hI.setUncompressed h.1 b, hJ.setUncompressed h.2 b⟩
  setCached h b := ⟨hI.setCached h.1 b, hJ.setCached h.2 b⟩
  setRefs h refs := ⟨hI.setRefs h.1 refs, hJ.setRefs h.2 refs⟩

theorem keeps_gets (g : Scene ω Ref → α) : (Eff.gets g : WorkM ω Ref α).Keeps I :=
  .gets fun _ h ↦ h

theorem keeps_call (hI : Steady W I) {f : ω → α × ω} (hf : ∀ w, W.Minor w (f w).2) :
    (call f : WorkM ω Ref α).Keeps I := .modifyGet fun s h ↦ hI.minor h (hf s.world)

private theorem keeps_push {r : Ref} (hI : Yielding W r I) {f : CacheEntry → CacheEntry}
    (hf : Mild W f) :
    (push W r f).Keeps I := .modify fun s h ↦ hI s f h hf

private theorem keeps_adviseEvict (hI : Steady W I) (path : Str) : (adviseEvict W path).Keeps I :=
  .modify fun s h ↦ hI.minor h (.adviseEvict path s.world)

private theorem keeps_setC (hI : Steady W I) (c : Option Ref) :
    (setC c : WorkM ω Ref Unit).Keeps I :=
  .modify fun _ h ↦ hI.setC h c

private theorem keeps_setCached (hI : Steady W I) (b : Bool) :
    (setCached b : WorkM ω Ref Unit).Keeps I := .modify fun _ h ↦ hI.setCached h b

private theorem keeps_put (hI : Steady W I) (path : Str) (r : Ref) (sz : Nat) :
    (put W path r sz).Keeps I :=
  .modifyGet fun s h ↦ hI.setRefs (hI.minor h (.put path r sz s.world)) _

private theorem keeps_currentAge (hI : Steady W I) (r : Ref) : (currentAge W r).Keeps I :=
  .bind (keeps_call W hI .time) fun _ ↦ .bind (keeps_call W hI .time) fun _ ↦ keeps_gets _

private theorem keeps_responseIsFresh (hI : Steady W I) (r : Ref) : (responseIsFresh W r).Keeps I :=
  .bind (keeps_currentAge W hI r) fun _ ↦ keeps_gets _

private theorem keeps_validate (hI : Steady W I) (path : Str) (r : Ref) :
    (validate W path r).Keeps I := by
  apply Eff.Ensures.bind (keeps_call W hI (.mtime path))
  intro t
  cases t with
  | none => exact .pure fun _ h ↦ h
  | some t => exact keeps_gets _

private theorem keeps_withinMaxStale (hI : Steady W I) (r : Ref) : (withinMaxStale W r).Keeps I :=
  .bind (keeps_currentAge W hI r) fun _ ↦ .bind (keeps_gets _) fun _ ↦ keeps_gets _

private theorem keeps_freshOrValid (hI : Steady W I) (path : Str) (r : Ref) (fresh : Bool) :
    (freshOrValid W path r fresh).Keeps I :=
  .ite (fun _ ↦ .pure fun _ h ↦ h) fun _ ↦ keeps_validate W hI path r

private theorem keeps_acceptable (hI : Steady W I) (path : Str) (r : Ref) (fresh : Bool) :
    (acceptable W path r fresh).Keeps I := by
  have hmaxStale : Eff.Keeps I (do
      if ← isset .useMaxStale then withinMaxStale W r else return true) :=
    .bind (keeps_gets _) fun _ ↦
      .ite (fun _ ↦ keeps_withinMaxStale W hI r) fun _ ↦ .pure fun _ h ↦ h
  refine .bind (keeps_freshOrValid W hI path r fresh) fun _ ↦ ?_
  refine .bind (keeps_gets _) fun _ ↦ .bind (keeps_gets _) fun _ ↦ ?_
  refine .ite (fun _ ↦ .pure fun _ h ↦ h) fun _ ↦ .bind (keeps_gets _) fun _ ↦ ?_
  refine .ite (fun _ ↦ ?_) fun _ ↦ .bind (keeps_gets _) fun _ ↦ .ite (fun _ ↦ ?_) fun _ ↦ hmaxStale
  · exact .bind (keeps_gets _) fun _ ↦ .bind (keeps_currentAge W hI r) fun _ ↦ keeps_gets _
  · refine .bind (keeps_gets _) fun _ ↦ .bind (keeps_gets _) fun _ ↦ .bind (keeps_gets _) fun _ ↦ ?_
    exact .bind (keeps_currentAge W hI r) fun _ ↦
      .ite (fun _ ↦ hmaxStale) fun _ ↦ .pure fun _ h ↦ h

private theorem keeps_acceptEntry (hI : Steady W I) {r : Ref} (hr : Yielding W r I) (path : Str)
    (fresh : Bool) : (acceptEntry W path r fresh).Keeps I :=
  .bind (keeps_currentAge W hI r) fun n ↦ .bind (keeps_push W hr (.age n)) fun _ ↦
    .ite (fun _ ↦ .pure fun _ h ↦ h) fun _ ↦
      .bind (keeps_adviseEvict W hI path) fun _ ↦ keeps_push W hr .warning

private theorem keeps_unexpired (hI : Steady W I) (r : Ref) : (unexpired W r).Keeps I :=
  .bind (keeps_gets _) fun _ ↦ .ite
    (fun _ ↦ .bind (keeps_call W hI .time) fun _ ↦ keeps_gets _) fun _ ↦ .pure fun _ h ↦ h

private theorem keeps_methodStores (hI : Steady W I) (r : Ref) : (methodStores W r).Keeps I :=
  .bind (keeps_gets _) fun _ ↦ .ite (fun _ ↦ .pure fun _ h ↦ h) fun _ ↦
    .ite (fun _ ↦ keeps_unexpired W hI r) fun _ ↦ .pure fun _ h ↦ h

private theorem keeps_cachePut (hI : Steady W I) (path : Str) (r : Ref) :
    (cachePut W path r).Keeps I :=
  .bind (keeps_methodStores W hI r) fun _ ↦ .ite (fun _ ↦ .pure fun _ h ↦ h) fun _ ↦
    .bind (keeps_gets _) fun _ ↦ .ite (fun _ ↦ .pure fun _ h ↦ h) fun _ ↦
      .bind (keeps_gets _) fun _ ↦ keeps_put W hI path r _

private theorem keeps_dress (hI : Steady W I) {r : Ref} (hr : Yielding W r I) (path : Str)
    (isFile : Bool) : (dress W cfg path r isFile).Keeps I := by
  refine .bind (keeps_gets _) fun stat ↦ .bind (keeps_push W hr (.status stat)) fun _ ↦ ?_
  refine .bind (keeps_push W hr (.type path isFile)) fun _ ↦ ?_
  refine .bind (keeps_call W hI .time) fun now ↦ .bind (keeps_push W hr (.date now)) fun _ ↦ ?_
  refine .bind (keeps_push W hr (.modified isFile)) fun _ ↦ .bind (keeps_call W hI .time) fun _ ↦ ?_
  exact .bind (keeps_push W hr (.expire _)) fun _ ↦ keeps_push W hr .expires

theorem keeps_onOops (hI : Steady W I) (e : Status) :
    (onOops W e : WorkM ω Ref Response).Keeps I :=
  .bind (keeps_call W hI .time) fun _ ↦ .pure fun _ h ↦ h

/-- A file is there that is a socket. -/
def NamesSocket (path : Str) : Prop :=
  (∃ w, (W.request path w).1 = .error .espipe) ∨
    ∃ body enc append w, (W.putorpost path body enc append w).1 = some .espipe

/-- What a request knows on its way: `I` before it has an entry, `J r` when it has the entry
that `r` refers to. -/
structure Route (I : Scene ω Ref → Prop) (J : Ref → Scene ω Ref → Prop) : Prop where
  steady : Steady W I
  entry (r) : Steady W (J r)
  yielding (r) : Yielding W r (J r)
  found {s path r} : I s → (W.get path s.world).1 = some r →
    I { s with world := (W.get path s.world).2 } ∧ J r { s with world := (W.get path s.world).2 }
  missed {s path} : I s → (W.get path s.world).1 = none →
    I { s with world := (W.get path s.world).2 }
  unget {s path} : I s → I { s with world := W.unget path s.world }
  read {s path r} : I s → (W.request path s.world).1 = .ok r →
    J r { s with world := (W.request path s.world).2 }
  unread {s path e} : I s → (W.request path s.world).1 = .error e →
    I { s with world := (W.request path s.world).2 }
  listed {s path r} : I s → (W.dirtoHTML path s.world).1 = .ok r →
    J r { s with world := (W.dirtoHTML path s.world).2 }
  unlisted {s path e} : I s → (W.dirtoHTML path s.world).1 = .error e →
    I { s with world := (W.dirtoHTML path s.world).2 }
  putorpost {s path body enc append} : I s →
    I { s with world := (W.putorpost path body enc append s.world).2 }
  unlink {s path} : I s → I { s with world := (W.unlink path s.world).2 }

section Route

variable {J : Ref → Scene ω Ref → Prop} {Q : Option Response → Scene ω Ref → Prop}
  {E : Scene ω Ref → Prop} {path : Str}

/-- The entry that was found is at hand, or it is not. -/
private theorem ensures_considerEntry (h : Route W I J) (hE : ∀ s, I s → E s)
    (hE' : ∀ r s, J r s → E s)
    (r : Ref) : (considerEntry W path r).Ensures (fun s ↦ I s ∧ J r s)
      (fun o s ↦ match o with | none => I s | some r => J r s) E := by
  have hboth := h.steady.and W (h.entry r)
  have hweak {α : Type} {x : WorkM ω Ref α} (hx : x.Keeps fun s ↦ I s ∧ J r s) :
      x.Ensures (fun s ↦ I s ∧ J r s) (fun _ s ↦ I s ∧ J r s) E :=
    hx.mono (fun _ h ↦ h) (fun _ _ h ↦ h) fun s h ↦ hE s h.1
  refine .bind (hweak (keeps_setC W hboth _)) fun _ ↦ ?_
  refine .bind (hweak (keeps_responseIsFresh W hboth r)) fun fresh ↦ ?_
  refine .bind (hweak (keeps_acceptable W hboth path r fresh)) fun _ ↦ .ite (fun _ ↦ ?_) fun _ ↦ ?_
  · refine .bind ((keeps_acceptEntry W (h.entry r) (h.yielding r) path fresh).mono
      (fun _ h ↦ h.2) (fun _ _ h ↦ h) (hE' r)) fun _ ↦ .pure fun _ h ↦ h
  · refine .bind (Q := fun _ ↦ I) (.modify fun s hs ↦ ?_) fun _ ↦ .pure fun _ h ↦ h
    exact h.steady.setRefs (h.unget hs.1) _

private theorem ensures_cacheGet (h : Route W I J) (hE : ∀ s, I s → E s)
    (hE' : ∀ r s, J r s → E s) :
    (cacheGet W path).Ensures I (fun o s ↦ match o with | none => I s | some r => J r s) E := by
  refine .bind (Q := fun _ ↦ I) (.gets fun _ h ↦ h) fun _ ↦
    .ite (fun _ ↦ .pure fun _ h ↦ h) fun _ ↦ ?_
  have hget : (get W path).Ensures I
      (fun o s ↦ match o with | none => I s | some r => I s ∧ J r s) E := by
    apply Eff.Ensures.modifyGet
    intro s hs
    cases hg : (W.get path s.world).1 with
    | none =>
      simp only [hg]
      exact h.steady.setRefs (h.missed hs hg) _
    | some r =>
      simp only [hg]
      obtain ⟨hI, hJ⟩ := h.found hs hg
      exact ⟨h.steady.setRefs hI _, (h.entry r).setRefs hJ _⟩
  apply Eff.Ensures.bind hget
  intro hit
  cases hit with
  | none => exact .pure fun _ h ↦ h
  | some r => exact ensures_considerEntry W h hE hE' r

/-- What an answer from an entry has, an answer from the origin server has. -/
private theorem ensures_askOrigin (h : Route W I J) (hE : ∀ s, I s → E s) (hE' : ∀ r s, J r s → E s)
    {reqBody : Str} (hsock : NamesSocket W path → (domainSocket W path reqBody).Ensures I Q E)
    (hanswer : ∀ r, (answer W r).Ensures (J r) Q E) :
    (askOrigin W cfg path reqBody).Ensures I Q E := by
  have hdress (r : Ref) (isFile : Bool) :
      (dress W cfg path r isFile).Ensures (J r) (fun _ ↦ J r) E :=
    (keeps_dress W cfg (h.entry r) (h.yielding r) path isFile).mono (fun _ h ↦ h)
      (fun _ _ h ↦ h) (hE' r)
  have hbook {α : Type} {r : Ref} {x : WorkM ω Ref α} (hx : x.Keeps (J r)) :
      x.Ensures (J r) (fun _ ↦ J r) E := hx.mono (fun _ h ↦ h) (fun _ _ h ↦ h) (hE' r)
  have hrequest : (call (W.request path) : WorkM ω Ref _).Ensures I (fun o s ↦
      (∀ r, o = .ok r → J r s) ∧
        ∀ e, o = .error e → I s ∧ (e = .espipe → NamesSocket W path)) E := by
    apply Eff.Ensures.modifyGet
    intro s hs
    refine ⟨fun r hr ↦ h.read hs hr, fun e he ↦ ⟨h.unread hs he, ?_⟩⟩
    rintro rfl
    exact .inl ⟨_, he⟩
  apply Eff.Ensures.bind hrequest
  intro o
  cases o with
  | ok r =>
    refine Eff.Ensures.mono (P := J r) ?_ (fun _ hs ↦ hs.1 r rfl) (fun _ _ h ↦ h) fun _ h ↦ h
    refine .bind (hbook (keeps_setC W (h.entry r) _)) fun _ ↦ .bind (hdress r true) fun _ ↦ ?_
    refine .bind (hbook (keeps_cachePut W (h.entry r) path r)) fun _ ↦ ?_
    exact .bind (hbook (keeps_setCached W (h.entry r) _)) fun _ ↦ hanswer r
  | error err =>
    refine Eff.Ensures.mono (P := fun s ↦ I s ∧ (err = .espipe → NamesSocket W path)) ?_
      (fun _ hs ↦ hs.2 err rfl) (fun _ _ h ↦ h) fun _ h ↦ h
    have hset : (setC none : WorkM ω Ref Unit).Ensures
        (fun s ↦ I s ∧ (err = .espipe → NamesSocket W path))
        (fun _ s ↦ I s ∧ (err = .espipe → NamesSocket W path)) E :=
      .modify fun _ hs ↦ ⟨h.steady.setC hs.1 _, hs.2⟩
    have hthrow (e : Status) : (throw e : WorkM ω Ref (Option Response)).Ensures
        (fun s ↦ I s ∧ (err = .espipe → NamesSocket W path)) Q E := .throw fun s hs ↦ hE s hs.1
    refine .bind hset fun _ ↦ .ite (fun _ ↦ hthrow _) fun _ ↦ .ite (fun _ ↦ hthrow _) fun _ ↦ ?_
    refine .ite (fun _ ↦ ?_) fun _ ↦
      .ite (fun hpipe s hs ↦ hsock (hs.2 hpipe) s hs.1) fun _ ↦ hthrow _
    have hlist : (call (W.dirtoHTML path) : WorkM ω Ref _).Ensures
        (fun s ↦ I s ∧ (err = .espipe → NamesSocket W path))
        (fun o s ↦ (∀ r, o = .ok r → J r s) ∧ ∀ e, o = .error e → I s) E :=
      .modifyGet fun s hs ↦ ⟨fun r hr ↦ h.listed hs.1 hr, fun e he ↦ h.unlisted hs.1 he⟩
    apply Eff.Ensures.bind hlist
    intro page
    cases page with
    | ok r =>
      refine Eff.Ensures.mono (P := J r) ?_ (fun _ hs ↦ hs.1 r rfl) (fun _ _ h ↦ h) fun _ h ↦ h
      refine .bind (hbook (keeps_setC W (h.entry r) _)) fun _ ↦ .bind (hdress r false) fun _ ↦ ?_
      exact .bind (hbook (keeps_setCached W (h.entry r) _)) fun _ ↦ hanswer r
    | error e => exact .throw fun s hs ↦ hE s (hs.2 e rfl)

private theorem ensures_getStyle (h : Route W I J) (hE : ∀ s, I s → E s) (hE' : ∀ r s, J r s → E s)
    {reqBody : Str} (hsock : NamesSocket W path → (domainSocket W path reqBody).Ensures I Q E)
    (hanswer : ∀ r, (answer W r).Ensures (J r) Q E) :
    (getStyle W cfg path reqBody).Ensures I Q E := by
  apply Eff.Ensures.bind (ensures_cacheGet W h hE hE')
  intro hit
  cases hit with
  | some r =>
    refine .bind (Q := fun _ ↦ J r) (.modify fun _ hs ↦ (h.entry r).setCached hs _) fun _ ↦ ?_
    exact hanswer r
  | none =>
    refine .bind (Q := fun _ ↦ I) (.modify fun _ hs ↦ h.steady.setCached hs _) fun _ ↦ ?_
    refine .bind (Q := fun _ ↦ I) (.gets fun _ h ↦ h) fun _ ↦ .ite (fun _ ↦ .throw hE) fun _ ↦ ?_
    exact ensures_askOrigin W cfg h hE hE' hsock hanswer

private theorem ensures_putOrPost (h : Route W I J) (hE : ∀ s, I s → E s) {reqBody : Str}
    (hsock : NamesSocket W path → (domainSocket W path reqBody).Ensures I Q E) (append : Bool) :
    (putOrPost W path reqBody append).Ensures I Q E := by
  refine .bind (Q := fun _ ↦ I) (.gets fun _ h ↦ h) fun enc ↦ ?_
  have hcall : (call (W.putorpost path reqBody enc append) : WorkM ω Ref _).Ensures I
      (fun o s ↦ I s ∧ (o = some .espipe → NamesSocket W path)) E :=
    .modifyGet fun s hs ↦ ⟨h.putorpost hs, fun ho ↦ .inr ⟨_, _, _, _, ho⟩⟩
  apply Eff.Ensures.bind hcall
  intro err
  cases err with
  | none =>
    exact .bind ((keeps_adviseEvict W h.steady path).mono (fun _ h ↦ h.1) (fun _ _ h ↦ h) hE)
      fun _ ↦ .throw hE
  | some err =>
    cases err with
    | espipe =>
      intro s hs
      exact hsock (hs.2 rfl) s hs.1
    | _ => exact .throw fun s hs ↦ hE s hs.1

private theorem ensures_deleteFile (h : Route W I J) (hE : ∀ s, I s → E s) (path : Str) :
    (deleteFile W path).Ensures I Q E := by
  refine .bind (Q := fun _ ↦ I) (.modifyGet fun s hs ↦ h.unlink hs) fun err ↦ ?_
  cases err with
  | none =>
    exact .bind ((keeps_adviseEvict W h.steady path).mono (fun _ h ↦ h) (fun _ _ h ↦ h) hE)
      fun _ ↦ .throw hE
  | some err => cases err <;> exact .throw hE

/-- Whatever the method. -/
theorem ensures_dispatch (h : Route W I J) (hE : ∀ s, I s → E s) (hE' : ∀ r s, J r s → E s)
    {reqBody : Str} (hsock : NamesSocket W path → (domainSocket W path reqBody).Ensures I Q E)
    (hanswer : ∀ r, (answer W r).Ensures (J r) Q E) (meth : Method) :
    (dispatch W cfg meth path reqBody).Ensures I Q E := by
  cases meth with
  | connect => exact .throw hE
  | post => exact ensures_putOrPost W h hE hsock true
  | put => exact ensures_putOrPost W h hE hsock false
  | delete => exact ensures_deleteFile W h hE path
  | _ => exact ensures_getStyle W cfg h hE hE' hsock hanswer

end Route

/-- The path that the headers of a request name, unless they are refused. -/
def Hdrs.path (cfg : Config) (h : Hdrs) : Str :=
  (Client.browseReq cfg { Client.new with reqHdrs := h }).2.path

/-- The method that the headers of a request name, unless they are refused. -/
def Hdrs.meth (cfg : Config) (h : Hdrs) : Method :=
  (Client.browseReq cfg { Client.new with reqHdrs := h }).2.meth

/-- What a request names does not depend on what was there before. -/
theorem Client.meth_path_of_browseReq {cfg : Config} {w w' : Client}
    (h : Client.browseReq cfg w = (.ok (), w')) :
    w'.meth = w.reqHdrs.meth cfg ∧ w'.path = w.reqHdrs.path cfg := by
  obtain ⟨hr, hsame⟩ := Client.browseReq_congr cfg (w := w)
    (v := { Client.new with reqHdrs := w.reqHdrs }) rfl
  rw [h] at hr hsame
  exact (hsame rfl).2

end Filth
