import Filth.Base.Counters
import Filth.Server.Client

/-!
# What the reading of the headers leaves

`browse_req` fails or succeeds by what the headers say. Where it succeeds, the method and the
path come from the request line; every other member comes from its header or, without one,
stays as it was.
-/

namespace Filth

open Base

/-- Whether a URI is accepted, and the path that is taken from it, do not depend on what was
there before. -/
theorem parseuri_congr (max : Limit) (uri path query path' query' : Str) :
    (parseuri max uri path query).1 = (parseuri max uri path' query').1 ∧
      ((parseuri max uri path query).1 = .ok () →
        (parseuri max uri path query).2.1 = (parseuri max uri path' query').2.1) := by
  unfold parseuri
  split
  · exact ⟨rfl, nofun⟩
  · split
    · exact ⟨rfl, fun _ ↦ rfl⟩
    · split
      · exact ⟨rfl, nofun⟩
      · split
        · exact ⟨rfl, fun _ ↦ rfl⟩
        · cases splitQuery uri with
          | none => exact ⟨rfl, fun _ ↦ rfl⟩
          | some p => exact ⟨rfl, fun _ ↦ rfl⟩

/-- The same for a request line and its method. -/
private theorem parsereqln_congr (max : Limit) (reqln : Str) (m m' : Method)
    (path query path' query' : Str) :
    (parsereqln max reqln m path query).1 = (parsereqln max reqln m' path' query').1 ∧
      ((parsereqln max reqln m path query).1 = .ok () →
        (parsereqln max reqln m path query).2.1 = (parsereqln max reqln m' path' query').2.1 ∧
        (parsereqln max reqln m path query).2.2.1 =
          (parsereqln max reqln m' path' query').2.2.1) := by
  unfold parsereqln
  cases Method.find (word reqln).1 with
  | none => exact ⟨rfl, nofun⟩
  | some meth =>
    obtain ⟨hr, hpath⟩ := parseuri_congr max (uriOf reqln) path query path' query'
    dsimp only
    generalize parseuri max (uriOf reqln) path query = o at hr hpath
    generalize parseuri max (uriOf reqln) path' query' = o' at hr hpath
    obtain ⟨r, p, q⟩ := o
    obtain ⟨r', p', q'⟩ := o'
    change r = r' at hr
    subst hr
    cases r with
    | error e => exact ⟨rfl, nofun⟩
    | ok u =>
      have hp : p = p' := hpath rfl
      dsimp only
      split
      · exact ⟨rfl, fun _ ↦ ⟨rfl, hp⟩⟩
      · exact ⟨rfl, nofun⟩

/-- The directive that a `Cache-Control` line sets. -/
def directive (line : Str) : Option CacheOpt :=
  if line = [] then none
  else if "no-cache".toList <:+: line then some .noCache
  else if "no-store".toList <:+: line then some .noStore
  else if "no-transform".toList <:+: line then some .noTransform
  else if "only-if-cached".toList <:+: line then some .onlyIfCached
  else if "max-age".toList <:+: line then some .useMaxAge
  else if "max-stale".toList <:+: line then some .useMaxStale
  else if "min-fresh".toList <:+: line then some .useMinFresh
  else none

/-- What a directive does to the line and to the settings. -/
def obey (line : Str) (cc : CacheControl) : Option CacheOpt → Str × CacheControl
  | none => (line, cc)
  | some .useMaxAge =>
    ((extractAfterTwoWords line cc.maxAge).1,
      { cc.set .useMaxAge with maxAge := (extractAfterTwoWords line cc.maxAge).2 })
  | some .useMaxStale =>
    if '=' ∈ line then
      ((extractAfterTwoWords line cc.maxStale).1,
        { cc.set .useMaxStale with maxStale := (extractAfterTwoWords line cc.maxStale).2 })
    else (line, { cc.set .useMaxStale with maxStale := -1 })
  | some .useMinFresh =>
    ((extractAfterTwoWords line cc.minFresh).1,
      { cc.set .useMinFresh with minFresh := (extractAfterTwoWords line cc.minFresh).2 })
  | some o => (line, cc.set o)

theorem readCacheControl_eq (line : Str) (cc : CacheControl) :
    readCacheControl line cc = obey line cc (directive line) := by
  rw [directive]
  simp only [apply_ite (obey line cc)]
  rfl

theorem flags_obey (line : Str) (cc : CacheControl) (o : Option CacheOpt) :
    (obey line cc o).2.flags = o.toList ++ cc.flags := by
  cases o with
  | none => rfl
  | some o =>
    cases o with
    | useMaxStale =>
      rw [obey]
      split <;> rfl
    | _ => rfl

/-- At most one directive is set. -/
theorem isset_readCacheControl (line : Str) {cc : CacheControl} (hcc : cc.flags = []) (o : CacheOpt) :
    (readCacheControl line cc).2.isset o ↔ directive line = some o := by
  rw [CacheControl.isset, readCacheControl_eq, flags_obey, hcc]
  cases directive line <;> simp [eq_comm]

/-- The line has no third word, so there is no value to extract. -/
def NoValue (line : Str) : Prop := (word (word line).2).2.dropWhile isspace = []

/-- Without a value the old one stays. -/
theorem extractAfterTwoWords_of_noValue {line : Str} (h : NoValue line) (old : Int) :
    (extractAfterTwoWords line old).2 = old := by
  unfold extractAfterTwoWords
  dsimp only
  split
  · rfl
  · exact if_pos h

/-- White space has no words. -/
theorem word_of_blank {s : Str} (h : s.dropWhile isspace = []) : word s = ([], []) := by
  rw [word, h]
  rfl

/-- A number that a `time_t` can have. -/
def IsTime (n : Int) : Prop := -2 ^ 63 ≤ n ∧ n < 2 ^ 63

instance (n : Int) : Decidable (IsTime n) := inferInstanceAs (Decidable (_ ∧ _))

theorem IsTime.signed {n : Int} (h : IsTime n) : Base.signed 64 n = n :=
  signed_of_range (by decide) h.1 h.2

private theorem isTime_extractTime (s : Str) {old : Int} (h : IsTime old) :
    IsTime (extractTime s old) := by
  unfold extractTime IsTime
  split
  · exact h
  · dsimp only
    split <;> omega

private theorem isTime_extractAfterTwoWords (line : Str) {old : Int} (h : IsTime old) :
    IsTime (extractAfterTwoWords line old).2 := by
  unfold extractAfterTwoWords
  dsimp only
  split
  · exact h
  · exact isTime_extractTime _ h

/-- The values of the directives are such numbers. -/
structure CacheControl.Timed (cc : CacheControl) : Prop where
  maxAge : IsTime cc.maxAge
  maxStale : IsTime cc.maxStale
  minFresh : IsTime cc.minFresh

theorem CacheControl.Timed.read {cc : CacheControl} (h : cc.Timed) (line : Str) :
    (readCacheControl line cc).2.Timed := by
  rw [readCacheControl_eq]
  cases directive line with
  | none => exact h
  | some o =>
    cases o with
    | useMaxAge => exact ⟨isTime_extractAfterTwoWords line h.maxAge, h.maxStale, h.minFresh⟩
    | useMinFresh => exact ⟨h.maxAge, h.maxStale, isTime_extractAfterTwoWords line h.minFresh⟩
    | useMaxStale =>
      rw [obey]
      split
      · exact ⟨h.maxAge, isTime_extractAfterTwoWords line h.maxStale, h.minFresh⟩
      · exact ⟨h.maxAge, (by decide : IsTime (-1)), h.minFresh⟩
    | _ => exact ⟨h.maxAge, h.maxStale, h.minFresh⟩

/-- A value replaces the old one. -/
private theorem extractAfterTwoWords_of_value {line : Str} (h : ¬ NoValue line) (old old' : Int) :
    (extractAfterTwoWords line old).2 = (extractAfterTwoWords line old').2 := by
  unfold extractAfterTwoWords
  dsimp only
  split
  · next hblank =>
    refine absurd ?_ h
    rw [NoValue, word_of_blank hblank]
    rfl
  · unfold NoValue at h
    simp only [extractTime, if_neg h]

/-- The old value matters only without a new one. -/
theorem extractAfterTwoWords_congr {line : Str} {old old' : Int} (h : NoValue line → old = old') :
    (extractAfterTwoWords line old).2 = (extractAfterTwoWords line old').2 := by
  by_cases hv : NoValue line
  · rw [h hv]
  · exact extractAfterTwoWords_of_value hv old old'

theorem readCacheControl_minFresh {line : Str} (h : directive line = some .useMinFresh)
    (cc : CacheControl) :
    (readCacheControl line cc).2.minFresh = (extractAfterTwoWords line cc.minFresh).2 := by
  rw [readCacheControl_eq, h]
  rfl

theorem readCacheControl_maxAge {line : Str} (h : directive line = some .useMaxAge)
    (cc : CacheControl) :
    (readCacheControl line cc).2.maxAge = (extractAfterTwoWords line cc.maxAge).2 := by
  rw [readCacheControl_eq, h]
  rfl

theorem readCacheControl_maxStale {line : Str} (h : directive line = some .useMaxStale)
    (cc : CacheControl) :
    (readCacheControl line cc).2.maxStale =
      if '=' ∈ line then (extractAfterTwoWords line cc.maxStale).2 else -1 := by
  rw [readCacheControl_eq, h, obey]
  split <;> rfl

/-- What the line is extracted into does not depend on old values. -/
theorem extractAfterTwoWords_fst (line : Str) (old old' : Int) :
    (extractAfterTwoWords line old).1 = (extractAfterTwoWords line old').1 := by
  unfold extractAfterTwoWords
  dsimp only
  split <;> rfl

private theorem readCacheControl_fst (line : Str) (cc cc' : CacheControl) :
    (readCacheControl line cc).1 = (readCacheControl line cc').1 := by
  rw [readCacheControl_eq, readCacheControl_eq]
  cases directive line with
  | none => rfl
  | some o =>
    cases o with
    | useMaxAge => exact extractAfterTwoWords_fst line _ _
    | useMinFresh => exact extractAfterTwoWords_fst line _ _
    | useMaxStale =>
      simp only [obey]
      split
      · exact extractAfterTwoWords_fst line _ _
      · rfl
    | _ => rfl

namespace Client

variable {cfg : Config} {w v w' : Client}

/-- Two works have the same headers, the same method and the same path. -/
def SameRequest (w v : Client) : Prop := w.reqHdrs = v.reqHdrs ∧ w.meth = v.meth ∧ w.path = v.path

theorem SameRequest.line (h : SameRequest w v) (hd : Header) : w.line hd = v.line hd := by
  rw [Client.line, Client.line, h.1]

theorem SameRequest.setLine (h : SameRequest w v) (hd : Header) {s s' : Str} (hs : s = s') :
    SameRequest (w.setLine hd s) (v.setLine hd s') := by
  refine ⟨?_, h.2⟩
  rw [Client.setLine, Client.setLine, h.1, hs]

private theorem lockstep_browseCoding (hd : Header) (assign : Client → ContentCoding → Client)
    (refuse : Status)
    (hassign : ∀ w v enc, SameRequest w v → SameRequest (assign w enc) (assign v enc)) :
    (browseCoding hd assign refuse).Lockstep SameRequest := by
  have hlower : ∀ w v, SameRequest w v → namedCoding (w.line hd) = namedCoding (v.line hd) := by
    intro w v h
    rw [h.line hd]
  refine .bind (Eff.Calm.gets fun w v h ↦ h.line hd).lockstep fun _ ↦ .ite (fun _ ↦ ?_) fun _ ↦ .pure _
  refine .bind (.modify fun w v h ↦ h.setLine hd (by rw [h.line hd])) fun _ ↦ ?_
  apply Eff.Lockstep.bind (Eff.Calm.gets hlower).lockstep
  intro enc
  cases enc with
  | none => exact .throw _
  | some enc => exact .modify fun w v h ↦ hassign w v enc h

private theorem lockstep_browseCacheControl : browseCacheControl.Lockstep SameRequest := by
  apply Eff.Lockstep.modify
  intro w v h
  refine h.setLine .cacheControl ?_
  rw [h.line .cacheControl]
  exact readCacheControl_fst _ _ _

private theorem lockstep_browseConnection : browseConnection.Lockstep SameRequest := by
  refine .bind (Eff.Calm.gets fun w v h ↦ ?_).lockstep fun _ ↦ .ite (fun _ ↦ ?_) fun _ ↦ .pure _
  · rw [h.line .connection]
  · exact .modify fun _ _ h ↦ h

private theorem lockstep_browseExpect : browseExpect.Lockstep SameRequest :=
  .bind (Eff.Calm.gets fun _ _ h ↦ h.line .expect).lockstep fun _ ↦ .ite
    (fun _ ↦ .ite (fun _ ↦ .throw _) fun _ ↦ .throw _) fun _ ↦ .pure _

private theorem lockstep_browseMaxForwards : browseMaxForwards.Lockstep SameRequest :=
  .bind (Eff.Calm.gets fun _ _ h ↦ h.line .maxForwards).lockstep fun _ ↦ .ite
    (fun _ ↦ .modify fun _ _ h ↦ h) fun _ ↦ .pure _

private theorem browseReqln_congr (cfg : Config) (h : w.reqHdrs = v.reqHdrs) :
    (browseReqln cfg w).1 = (browseReqln cfg v).1 ∧
      ((browseReqln cfg w).1 = .ok () →
        SameRequest (browseReqln cfg w).2 (browseReqln cfg v).2) := by
  obtain ⟨hr, hreq⟩ := parsereqln_congr cfg.maxReqUri w.reqHdrs.reqln w.meth v.meth w.path w.query
    v.path v.query
  unfold browseReqln
  rw [← congrArg Hdrs.reqln h]
  generalize parsereqln cfg.maxReqUri w.reqHdrs.reqln w.meth w.path w.query = o at hr hreq
  generalize parsereqln cfg.maxReqUri w.reqHdrs.reqln v.meth v.path v.query = o' at hr hreq
  obtain ⟨r, meth, path, query⟩ := o
  obtain ⟨r', meth', path', query'⟩ := o'
  change r = r' at hr
  subst hr
  cases r with
  | error e => exact ⟨rfl, nofun⟩
  | ok u =>
    obtain ⟨hmeth, hpath⟩ := hreq rfl
    exact ⟨rfl, fun _ ↦ ⟨h, hmeth, congrArg (resolve cfg.defaultResource) hpath⟩⟩

/-- Success, and on success the request as the work knows it, depend on the headers alone. -/
theorem browseReq_congr (cfg : Config) (h : w.reqHdrs = v.reqHdrs) :
    (browseReq cfg w).1 = (browseReq cfg v).1 ∧
      ((browseReq cfg w).1 = .ok () →
        SameRequest (browseReq cfg w).2 (browseReq cfg v).2) := by
  have hrest : Eff.Lockstep SameRequest (do
      browseAcceptEncoding
      browseCacheControl
      browseConnection
      browseContentEncoding
      browseExpect
      browseMaxForwards) :=
    .bind (lockstep_browseCoding _ _ _ fun _ _ _ h ↦ h) fun _ ↦
    .bind lockstep_browseCacheControl fun _ ↦ .bind lockstep_browseConnection fun _ ↦
    .bind (lockstep_browseCoding _ _ _ fun _ _ _ h ↦ h) fun _ ↦
    .bind lockstep_browseExpect fun _ ↦ lockstep_browseMaxForwards
  obtain ⟨hr, hreq⟩ := browseReqln_congr cfg h
  unfold browseReq
  cases hw : browseReqln cfg w with
  | mk r w₁ =>
    cases hv : browseReqln cfg v with
    | mk r' v₁ =>
      rw [hw, hv] at hr hreq
      change r = r' at hr
      subst hr
      cases r with
      | error e =>
        rw [Eff.bind_error hw, Eff.bind_error hv]
        exact ⟨rfl, nofun⟩
      | ok u =>
        rw [Eff.bind_ok hw, Eff.bind_ok hv]
        obtain ⟨hr, hsame⟩ := hrest w₁ v₁ (hreq rfl)
        exact ⟨hr, fun _ ↦ hsame⟩

@[simp] theorem line_setLine (w : Client) (hd hd' : Header) (s : Str) :
    (w.setLine hd s).line hd' = if hd' = hd then s else w.line hd' := by
  simp [line, setLine, Function.update_apply]

/-- A coding comes from its header, or it is the one that was there. -/
def CodingFrom (line : Str) (old new : ContentCoding) : Prop :=
  line = [] ∧ new = old ∨ line ≠ [] ∧ namedCoding (lower line) = some new

theorem CodingFrom.of_empty {line : Str} {old new : ContentCoding} (h : CodingFrom line old new)
    (hline : line = []) : new = old := by
  rcases h with ⟨-, hnew⟩ | ⟨hne, -⟩
  · exact hnew
  · exact absurd hline hne

theorem CodingFrom.congr {line : Str} {old old' new new' : ContentCoding}
    (h : CodingFrom line old new) (h' : CodingFrom line old' new') (hold : line = [] → old = old') :
    new = new' := by
  rcases h with ⟨hline, rfl⟩ | ⟨hline, hname⟩ <;> rcases h' with ⟨hline', rfl⟩ | ⟨hline', hname'⟩
  · exact hold hline
  · exact absurd hline hline'
  · exact absurd hline' hline
  · exact Option.some.inj (hname.symm.trans hname')

/-- What a work that has read the headers `w.reqHdrs` has from them, and what from before. -/
structure Browsed (w w' : Client) : Prop where
  clCacheControl :
    w'.clCacheControl = (readCacheControl (w.line .cacheControl) w.clCacheControl).2
  clAcceptEnc : CodingFrom (w.line .acceptEncoding) w.clAcceptEnc w'.clAcceptEnc
  clContentEnc : CodingFrom (w.line .contentEncoding) w.clContentEnc w'.clContentEnc

/-- What the headers may change, apart from the request itself. -/
def settings (w : Client) : CacheControl × ContentCoding × ContentCoding :=
  (w.clCacheControl, w.clAcceptEnc, w.clContentEnc)

theorem browseReqln_ok (h : browseReqln cfg w = (.ok (), w')) :
    w'.settings = w.settings ∧ w'.reqHdrs = w.reqHdrs := by
  unfold browseReqln at h
  split at h
  · cases h
  · cases h
    exact ⟨rfl, rfl⟩

private theorem browseCoding_ok {hd : Header} {assign : Client → ContentCoding → Client}
    {refuse : Status}
    (h : browseCoding hd assign refuse w = (.ok (), w')) :
    w.line hd = [] ∧ w' = w ∨ w.line hd ≠ [] ∧ ∃ enc, namedCoding (lower (w.line hd)) = some enc ∧
      w' = assign (w.setLine hd (lower (w.line hd))) enc := by
  rw [browseCoding, Eff.gets_bind] at h
  split at h
  · next hne =>
    rw [Eff.modify_bind, Eff.gets_bind, line_setLine, if_pos rfl] at h
    cases henc : namedCoding (lower (w.line hd)) with
    | none =>
      rw [henc] at h
      cases h
    | some enc =>
      rw [henc] at h
      cases h
      exact .inr ⟨hne, enc, rfl, rfl⟩
  · next heq =>
    cases h
    exact .inl ⟨not_not.mp heq, rfl⟩

private theorem browseAcceptEncoding_ok (h : browseAcceptEncoding w = (.ok (), w')) :
    w'.clCacheControl = w.clCacheControl ∧
      CodingFrom (w.line .acceptEncoding) w.clAcceptEnc w'.clAcceptEnc ∧
      w'.clContentEnc = w.clContentEnc ∧
      ∀ hd, hd ≠ .acceptEncoding → w'.line hd = w.line hd := by
  rcases browseCoding_ok h with ⟨hline, rfl⟩ | ⟨hline, enc, hname, rfl⟩
  · exact ⟨rfl, .inl ⟨hline, rfl⟩, rfl, fun _ _ ↦ rfl⟩
  · refine ⟨rfl, .inr ⟨hline, hname⟩, rfl, fun hd hne ↦ ?_⟩
    exact (line_setLine w _ hd _).trans (if_neg hne)

private theorem browseContentEncoding_ok (h : browseContentEncoding w = (.ok (), w')) :
    w'.clCacheControl = w.clCacheControl ∧ w'.clAcceptEnc = w.clAcceptEnc ∧
      CodingFrom (w.line .contentEncoding) w.clContentEnc w'.clContentEnc := by
  rcases browseCoding_ok h with ⟨hline, rfl⟩ | ⟨hline, enc, hname, rfl⟩
  · exact ⟨rfl, rfl, .inl ⟨hline, rfl⟩⟩
  · exact ⟨rfl, rfl, .inr ⟨hline, hname⟩⟩

private theorem browseConnection_ok (h : browseConnection w = (.ok (), w')) :
    w'.settings = w.settings ∧ w'.reqHdrs = w.reqHdrs := by
  rw [browseConnection, Eff.gets_bind] at h
  split at h
  · cases h
    exact ⟨rfl, rfl⟩
  · cases h
    exact ⟨rfl, rfl⟩

private theorem browseExpect_ok (h : browseExpect w = (.ok (), w')) : w' = w := by
  rw [browseExpect, Eff.gets_bind] at h
  split at h
  · split at h <;> cases h
  · cases h
    rfl

private theorem browseMaxForwards_ok (h : browseMaxForwards w = (.ok (), w')) :
    w'.settings = w.settings := by
  rw [browseMaxForwards, Eff.gets_bind] at h
  split at h
  · cases h
    rfl
  · cases h
    rfl

theorem browsed (h : browseReq cfg w = (.ok (), w')) : Browsed w w' := by
  obtain ⟨_, w₁, h₁, h⟩ := Eff.bind_eq_ok h
  obtain ⟨_, w₂, h₂, h⟩ := Eff.bind_eq_ok h
  obtain ⟨_, w₃, h₃, h⟩ := Eff.bind_eq_ok h
  obtain ⟨_, w₄, h₄, h⟩ := Eff.bind_eq_ok h
  obtain ⟨_, w₅, h₅, h⟩ := Eff.bind_eq_ok h
  obtain ⟨_, w₆, h₆, h₇⟩ := Eff.bind_eq_ok h
  obtain ⟨hset₁, hhdrs₁⟩ := browseReqln_ok h₁
  obtain ⟨hcc₂, haccept₂, hcontent₂, hline₂⟩ := browseAcceptEncoding_ok h₂
  obtain ⟨hset₄, hhdrs₄⟩ := browseConnection_ok h₄
  obtain ⟨hcc₅, haccept₅, hcontent₅⟩ := browseContentEncoding_ok h₅
  obtain rfl := browseExpect_ok h₆
  have hset₇ := browseMaxForwards_ok h₇
  have hline₁ (hd : Header) : w₁.line hd = w.line hd := by rw [line, line, hhdrs₁]
  have hline₃ : w₃.line .contentEncoding = w₂.line .contentEncoding := by
    cases h₃
    exact (line_setLine w₂ _ _ _).trans (if_neg (by decide))
  have hline₄ : w₄.line .contentEncoding = w.line .contentEncoding := by
    rw [line, hhdrs₄, ← line, hline₃, hline₂ _ (by decide), hline₁]
  have hcc₃ : w₃.clCacheControl = (readCacheControl (w₂.line .cacheControl) w₂.clCacheControl).2 := by
    cases h₃
    rfl
  have haccept₃ : w₃.clAcceptEnc = w₂.clAcceptEnc := by cases h₃; rfl
  have hcontent₃ : w₃.clContentEnc = w₂.clContentEnc := by cases h₃; rfl
  simp only [settings, Prod.mk.injEq] at hset₁ hset₄ hset₇
  constructor
  · rw [hset₇.1, hcc₅, hset₄.1, hcc₃, hcc₂, hset₁.1, hline₂ _ (by decide), hline₁]
  · rw [hset₇.2.1, haccept₅, hset₄.2.1, haccept₃, ← hset₁.2.1, ← hline₁]
    exact haccept₂
  · rw [hset₇.2.2, ← hline₄, ← hset₁.2.2, ← hcontent₂, ← hcontent₃, ← hset₄.2.2]
    exact hcontent₅

/-! ### What the headers leave alone -/

/-- A property of works that survives whatever the headers before `Expect` change. -/
structure Spared (I : Client → Prop) : Prop where
  setLine {w : Client} (h : I w) {hd : Header}
    (hhd : hd = .acceptEncoding ∨ hd = .cacheControl ∨ hd = .contentEncoding) (s : Str) :
    I (w.setLine hd s)
  clAcceptEnc {w : Client} (h : I w) (enc : ContentCoding) : I { w with clAcceptEnc := enc }
  clContentEnc {w : Client} (h : I w) (enc : ContentCoding) : I { w with clContentEnc := enc }
  clCacheControl {w : Client} (h : I w) (line : Str) :
    I { w with clCacheControl := (readCacheControl line w.clCacheControl).2 }
  deleteme {w : Client} (h : I w) : I { w with deleteme := true }

section Spared

variable {I : Client → Prop}

theorem Spared.coding (hI : Spared I) {hd : Header}
    (hhd : hd = .acceptEncoding ∨ hd = .cacheControl ∨ hd = .contentEncoding)
    {assign : Client → ContentCoding → Client} (refuse : Status)
    (hassign : ∀ w enc, I w → I (assign w enc)) : (browseCoding hd assign refuse).Keeps I := by
  refine .bind (.gets fun _ h ↦ h) fun _ ↦ .ite (fun _ ↦ ?_) fun _ ↦ .pure fun _ h ↦ h
  refine .bind (Q := fun _ ↦ I) (.modify fun _ h ↦ hI.setLine h hhd _) fun _ ↦ ?_
  refine .bind (Q := fun _ ↦ I) (.gets fun _ h ↦ h) fun enc ↦ ?_
  cases enc with
  | none => exact .throw fun _ h ↦ h
  | some enc => exact .modify fun w hw ↦ hassign w enc hw

theorem Spared.acceptEncoding (hI : Spared I) : browseAcceptEncoding.Keeps I :=
  hI.coding (.inl rfl) _ fun _ enc h ↦ hI.clAcceptEnc h enc

theorem Spared.cacheControl (hI : Spared I) : browseCacheControl.Keeps I :=
  .modify fun _ h ↦ hI.clCacheControl (hI.setLine h (.inr (.inl rfl)) _) _

theorem keeps_connection (h : ∀ w, I w → I { w with deleteme := true }) :
    browseConnection.Keeps I :=
  .bind (.gets fun _ h ↦ h) fun _ ↦ .ite (fun _ ↦ .modify h) fun _ ↦ .pure fun _ h ↦ h

theorem Spared.contentEncoding (hI : Spared I) : browseContentEncoding.Keeps I :=
  hI.coding (.inr (.inr rfl)) _ fun _ enc h ↦ hI.clContentEnc h enc

/-- Expectations are refused without a change. -/
theorem keeps_expect (I : Client → Prop) : browseExpect.Keeps I :=
  .bind (.gets fun _ h ↦ h) fun _ ↦ .ite
    (fun _ ↦ .ite (fun _ ↦ .throw fun _ h ↦ h) fun _ ↦ .throw fun _ h ↦ h) fun _ ↦ .pure fun _ h ↦ h

theorem keeps_maxForwards (h : ∀ w n, I w → I { w with clMaxFwds := n }) :
    browseMaxForwards.Keeps I :=
  .bind (.gets fun _ h ↦ h) fun _ ↦ .ite (fun _ ↦ .modify fun w hw ↦ h w _ hw)
    fun _ ↦ .pure fun _ h ↦ h

/-- What is spared, and does not depend on `Max-Forwards`, the headers leave alone. -/
theorem Spared.headers (hI : Spared I) (hfwds : ∀ w n, I w → I { w with clMaxFwds := n }) :
    Eff.Keeps I (do
      browseAcceptEncoding
      browseCacheControl
      browseConnection
      browseContentEncoding
      browseExpect
      browseMaxForwards) :=
  .bind hI.acceptEncoding fun _ ↦ .bind hI.cacheControl fun _ ↦
  .bind (keeps_connection fun _ ↦ hI.deleteme) fun _ ↦ .bind hI.contentEncoding fun _ ↦
  .bind (keeps_expect I) fun _ ↦ keeps_maxForwards hfwds

end Spared
end Client
end Filth
