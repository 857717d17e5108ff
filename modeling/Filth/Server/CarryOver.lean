import Filth.Server.SideBySide

/-!
# What a request takes over from earlier ones

Between two requests `reset` clears the headers, the path, the query and the directives. The
codings that were negotiated and the values of directives stay, and a request that does not
set them itself finds those of an earlier request.
-/

namespace Filth

open Base WorkM

variable {ω Ref : Type} (W : World ω Ref) (cfg : Config)

/-- What the resets leave of what a request said. -/
def Client.cleared (w : Client) : Client :=
  { w with reqHdrs := .empty, path := [], query := [], clCacheControl := w.clCacheControl.clear }

/-- What a history of requests leaves, if the connection outlives it. -/
def Client.after (cfg : Config) : Client → List Hdrs → Option Client
  | w, [] => some w
  | w, h :: hs =>
    if w.deleteme then none
    else after cfg (Client.browseReq cfg { w with reqHdrs := h }).2.cleared hs

/-- A run of requests leaves what its headers leave, in every world. -/
theorem run_connection (world : ω) (qs : List (Request ω)) (s : Scene ω Ref) :
    ((connection W cfg world).run s qs).map (fun t ↦ (t.client, t.stat)) =
      (Client.after cfg s.client (qs.map Request.hdrs)).map fun w ↦ (w, s.stat) := by
  induction qs generalizing s with
  | nil => rfl
  | cons q qs ih =>
    rw [Machine.run_cons, List.map_cons, Client.after]
    simp only [connection] at ih ⊢
    split
    · rfl
    · have hs := serve_client W cfg s q
      simp only [Prod.mk.injEq] at hs
      rw [Option.bind_some, ih, ← hs.1, ← hs.2]
      rfl

/-- Between two requests no directive is set. -/
theorem Client.flags_after {w w' : Client} {hs : List Hdrs} (hw : w.clCacheControl.flags = [])
    (h : Client.after cfg w hs = some w') : w'.clCacheControl.flags = [] := by
  induction hs generalizing w with
  | nil =>
    cases h
    exact hw
  | cons hd hs ih =>
    rw [Client.after] at h
    split at h
    · cases h
    · exact ih rfl h

/-- The values of the directives fit their type. -/
theorem Client.timed_after {w w' : Client} {hs : List Hdrs} (hw : w.clCacheControl.Timed)
    (h : Client.after cfg w hs = some w') : w'.clCacheControl.Timed := by
  have hI : Spared fun w ↦ w.clCacheControl.Timed :=
    ⟨fun h _ _ _ ↦ h, fun h _ ↦ h, fun h _ ↦ h, fun h line ↦ h.read line, fun h ↦ h⟩
  induction hs generalizing w with
  | nil =>
    cases h
    exact hw
  | cons hd hs ih =>
    rw [Client.after] at h
    split at h
    · cases h
    · refine ih ?_ h
      have hreqln : (browseReqln cfg).Keeps fun w ↦ w.clCacheControl.Timed := by
        intro w hw
        have hkept : (browseReqln cfg w).2.clCacheControl = w.clCacheControl := by
          unfold browseReqln
          split <;> rfl
        constructor <;> intro r w' heq <;> rw [heq] at hkept <;> exact hkept ▸ hw
      obtain ⟨hok, herr⟩ := hreqln.bind (fun _ ↦ hI.headers fun _ _ h ↦ h)
        { w with reqHdrs := hd } hw
      have htimed : (browseReq cfg { w with reqHdrs := hd }).2.clCacheControl.Timed := by
        cases hb : browseReq cfg { w with reqHdrs := hd } with
        | mk r v =>
          cases r with
          | ok u => exact hok u v hb
          | error e => exact herr e v hb
      exact ⟨htimed.maxAge, htimed.maxStale, htimed.minFresh⟩

/-- The method of a request whose headers are accepted. -/
def asked (cfg : Config) (h : Hdrs) : Option Method :=
  match Client.browseReq cfg { Client.new with reqHdrs := h } with
  | (.ok (), w) => some w.meth
  | (.error _, _) => none

/-- Of what earlier requests have left, everything that a request would use without setting it
is as the constructors leave it. -/
structure Restored (cfg : Config) (w : Client) (h : Hdrs) : Prop where
  clContentEnc : (asked cfg h).any Method.writes → h.hdr .contentEncoding = [] →
    w.clContentEnc = .identity
  clAcceptEnc : (asked cfg h).any (fun m ↦ m.reads && m ≠ .head) → h.hdr .acceptEncoding = [] →
    w.clAcceptEnc = .identity
  minFresh : (asked cfg h).any Method.reads → directive (h.hdr .cacheControl) = some .useMinFresh →
    NoValue (h.hdr .cacheControl) → w.clCacheControl.minFresh = 0
  maxAge : (asked cfg h).any Method.reads → directive (h.hdr .cacheControl) = some .useMaxAge →
    NoValue (h.hdr .cacheControl) → w.clCacheControl.maxAge = 0
  maxStale : (asked cfg h).any Method.reads → directive (h.hdr .cacheControl) = some .useMaxStale →
    '=' ∈ h.hdr .cacheControl → NoValue (h.hdr .cacheControl) → w.clCacheControl.maxStale = 0

/-- After requests with the given headers, in whatever worlds they came, the next request comes
to the same as on a fresh connection. -/
def NoCarryOver (cfg : Config) (hs : List Hdrs) (h : Hdrs) (body : Str) : Prop :=
  ∀ (ω Ref : Type) (W : World ω Ref) (world₀ world : ω) (qs : List (Request ω)) (s : Scene ω Ref),
    qs.map Request.hdrs = hs →
    (connection W cfg world₀).run (connection W cfg world₀).init qs = some s →
    outcome W cfg s ⟨h, body, world⟩ = outcome W cfg (.new world) ⟨h, body, world⟩

/-- Without anything left over, a work understands a request as a fresh one does. -/
private theorem alike_of_restored {w w' v : Client} {h : Hdrs}
    (hflags : w.clCacheControl.flags = [])
    (hres : Restored cfg w h) (hw : Client.browseReq cfg { w with reqHdrs := h } = (.ok (), w'))
    (hv : Client.browseReq cfg { Client.new with reqHdrs := h } = (.ok (), v))
    (hmeth : w'.meth = v.meth) :
    w'.clCacheControl.flags = v.clCacheControl.flags ∧ (w'.meth.reads → Alike w' v) ∧
      (w'.meth.writes → w'.clContentEnc = v.clContentEnc) := by
  have hb := Client.browsed hw
  have hb' := Client.browsed hv
  have hcc : w'.clCacheControl =
      (readCacheControl (h.hdr .cacheControl) w.clCacheControl).2 := hb.clCacheControl
  have hcc' : v.clCacheControl = (readCacheControl (h.hdr .cacheControl) .new).2 :=
    hb'.clCacheControl
  have hasked : asked cfg h = some w'.meth := by rw [asked, hv, hmeth]
  have hset {o : CacheOpt} (ho : w'.clCacheControl.isset o) :
      directive (h.hdr .cacheControl) = some o := by
    rw [hcc] at ho
    exact (isset_readCacheControl _ hflags o).mp ho
  refine ⟨?_, fun hm ↦ ⟨?_, ?_, ?_, ?_⟩, fun hm ↦ ?_⟩
  · rw [hcc, hcc', readCacheControl_eq, readCacheControl_eq, flags_obey, flags_obey, hflags]
    rfl
  · intro ho
    rw [hcc, hcc', readCacheControl_minFresh (hset ho), readCacheControl_minFresh (hset ho)]
    exact extractAfterTwoWords_congr (hres.minFresh (by rw [hasked]; exact hm) (hset ho))
  · intro ho
    rw [hcc, hcc', readCacheControl_maxAge (hset ho), readCacheControl_maxAge (hset ho)]
    exact extractAfterTwoWords_congr (hres.maxAge (by rw [hasked]; exact hm) (hset ho))
  · intro ho
    rw [hcc, hcc', readCacheControl_maxStale (hset ho), readCacheControl_maxStale (hset ho)]
    split
    · next heq =>
      exact extractAfterTwoWords_congr (hres.maxStale (by rw [hasked]; exact hm) (hset ho) heq)
    · rfl
  · intro hhead
    exact hb.clAcceptEnc.congr hb'.clAcceptEnc (hres.clAcceptEnc (by simp [hasked, hm, hhead]))
  · exact hb.clContentEnc.congr hb'.clContentEnc (hres.clContentEnc (by rw [hasked]; exact hm))

/-- After a history, what the work knows is what the headers have left. -/
private theorem after_of_run {world : ω} {qs : List (Request ω)} {s : Scene ω Ref}
    (hrun : (connection W cfg world).run (connection W cfg world).init qs = some s) :
    Client.after cfg .new (qs.map Request.hdrs) = some s.client ∧ s.stat = .ok := by
  have hclient := run_connection W cfg world qs (connection W cfg world).init
  rw [hrun, Option.map_some, eq_comm, Option.map_eq_some_iff] at hclient
  obtain ⟨w, hafter, hws⟩ := hclient
  simp only [Prod.mk.injEq] at hws
  exact ⟨hafter.trans (congrArg some hws.1), hws.2.symm⟩

/-- Without anything left over there is no carry-over. -/
private theorem noCarryOver_of_restored {hs : List Hdrs} {h : Hdrs} (body : Str)
    (hres : ∀ w, Client.after cfg .new hs = some w → Restored cfg w h) :
    NoCarryOver cfg hs h body := by
  intro ω Ref W world₀ world qs s hqs hrun
  obtain ⟨hafter, hstat⟩ := after_of_run W cfg hrun
  rw [hqs] at hafter
  have hflags := Client.flags_after cfg rfl hafter
  obtain ⟨hr, hsame⟩ := Client.browseReq_congr cfg (w := { s.client with reqHdrs := h })
    (v := { Client.new with reqHdrs := h }) rfl
  cases hw : Client.browseReq cfg { s.client with reqHdrs := h } with
  | mk r w =>
    cases hv : Client.browseReq cfg { Client.new with reqHdrs := h } with
    | mk r' v =>
      rw [hw, hv] at hr hsame
      change r = r' at hr
      subst hr
      cases r with
      | error e =>
        unfold outcome serve
        rw [respond_eq, respond_eq]
        dsimp only
        rw [hw, Scene.new, hv]
        rfl
      | ok u =>
        have hsame := hsame rfl
        obtain ⟨hflags', halike, henc⟩ :=
          alike_of_restored cfg hflags (hres _ hafter) hw hv hsame.2.1
        exact outcome_congr W cfg hstat hw hv hsame hflags' halike henc

/-! What is left over shows in some world. -/

/-- The body of a response, if there is one. -/
def bodyOf : Except Status (Option Response) → Option Str
  | .ok (some response) => some response.body
  | _ => none

/-- A history that leaves `w` leaves it in every world. -/
theorem NoCarryOver.body {hs : List Hdrs} {h : Hdrs} {body : Str} (hno : NoCarryOver cfg hs h body)
    {w w' v : Client} (hafter : Client.after cfg .new hs = some w)
    (hw : Client.browseReq cfg { w with reqHdrs := h } = (.ok (), w'))
    (hv : Client.browseReq cfg { Client.new with reqHdrs := h } = (.ok (), v))
    (W : World Unit Unit) (o : Client → Option Str)
    (ho : ∀ s : Scene Unit Unit, s.client = w' ∨ s.client = v →
      bodyOf (tryCatch (dispatch W cfg s.client.meth s.client.path body)
        (fun e ↦ do return some (← onOops W e)) s).1 = o s.client) : o w' = o v := by
  have hrun := run_connection W cfg () (hs.map fun h ↦ ⟨h, [], ()⟩) (connection W cfg ()).init
  have hmap : (hs.map fun h ↦ (⟨h, [], ()⟩ : Request Unit)).map Request.hdrs = hs := by
    simp [Function.comp_def]
  rw [hmap, show (connection W cfg ()).init.client = .new from rfl, hafter] at hrun
  obtain ⟨s, hs, hclient⟩ := Option.map_eq_some_iff.mp hrun
  simp only [Prod.mk.injEq] at hclient
  have heq := hno Unit Unit W () () _ s hmap hs
  have hbody := congrArg (fun o ↦ bodyOf o.1) heq
  unfold outcome serve at hbody
  rw [respond_eq, respond_eq] at hbody
  dsimp only at hbody
  rw [hclient.1, hw, Scene.new, hv] at hbody
  have hold := ho { s with client := w' } (.inl rfl)
  have hnew := ho { Scene.new () with client := v } (.inr rfl)
  exact hold.symm.trans (hbody.trans hnew)

/-- A world where only bodies in identity coding can be written. -/
def plainOnly : World Unit Unit :=
  { World.inert .blank with
    putorpost := fun _ _ enc _ _ ↦ (if enc = .identity then none else some .enoent, ()) }

private theorem putOrPost_plainOnly (path body : Str) (append : Bool) (s : Scene Unit Unit) :
    putOrPost plainOnly path body append s =
      (.error (if s.client.clContentEnc = .identity then .ok else .notFound), s) := by
  have hcall : (plainOnly.putorpost path body s.client.clContentEnc append) s.world =
      (if s.client.clContentEnc = .identity then none else some .enoent, ()) := rfl
  rw [putOrPost, asks, Eff.gets_bind, call_bind hcall]
  split <;> rfl

private theorem bodyOf_plainOnly {s : Scene Unit Unit} (hm : s.client.meth.writes) (body : Str) :
    bodyOf (tryCatch (dispatch plainOnly cfg s.client.meth s.client.path body)
      (fun e ↦ do return some (← onOops plainOnly e)) s).1 =
    some (if s.client.clContentEnc = .identity then Status.ok else Status.notFound).str := by
  have hput (append : Bool) : bodyOf (tryCatch (putOrPost plainOnly s.client.path body append)
      (fun e ↦ do return some (← onOops plainOnly e)) s).1 =
      some (if s.client.clContentEnc = .identity then Status.ok else Status.notFound).str := by
    rw [Eff.tryCatch_error (putOrPost_plainOnly s.client.path body append s)]
    rfl
  cases hmeth : s.client.meth with
  | put => exact hput false
  | post => exact hput true
  | _ => rw [hmeth] at hm; cases hm

/-- The methods that look into the cache all do so in one way. -/
theorem dispatch_of_reads {m : Method} (hm : m.reads) (W : World Unit Unit) (path body : Str) :
    dispatch W cfg m path body = getStyle W cfg path body := by
  cases m with
  | get | head | options | trace => rfl
  | _ => cases hm

/-- One directive is set and no other. -/
theorem isset_of_flags {w : Client} {o : CacheOpt} (hw : w.clCacheControl.flags = [o])
    (o' : CacheOpt) : w.clCacheControl.isset o' = decide (o' = o) := by
  simp [CacheControl.isset, hw]

/-- A world with a valid entry in the cache, the same file on disk, and no memory. -/
def crammed : World Unit Unit :=
  { World.inert .blank with
    get := fun _ _ ↦ (some (), ())
    mtime := fun _ _ ↦ (some 0, ())
    request := fun _ _ ↦ (.ok (), ()) }

private theorem acceptable_crammed (path : Str) (fresh : Bool) {s : Scene Unit Unit}
    (hs : s.client.clCacheControl.flags = [.onlyIfCached]) :
    acceptable crammed path () fresh s = (.ok true, s) := by
  have hvalid : freshOrValid crammed path () fresh s = (.ok true, s) := by
    cases fresh <;> rfl
  rw [acceptable, Eff.bind_ok hvalid]
  simp [isset_bind, isset_of_flags hs]

private theorem cacheGet_crammed (path : Str) {s : Scene Unit Unit}
    (hs : s.client.clCacheControl.flags = [.onlyIfCached]) :
    ∃ s', cacheGet crammed path s = (.ok (some ()), s') ∧ s'.client = s.client := by
  have hset : ¬ s.client.clCacheControl.isset .noCache := by simp [isset_of_flags hs]
  obtain ⟨fresh, s₁, hfresh, hclient₁⟩ := client_of_calm crammed
    (fun hK ↦ calm_responseIsFresh crammed hK.toAbreast ())
    { s with refs := path :: s.refs, c := some () }
  obtain ⟨_, s₂, haccept, hclient₂⟩ := client_of_calm crammed
    (fun hK ↦ calm_acceptEntry crammed hK.toAbreast path () fresh) s₁
  have hok : acceptable crammed path () fresh s₁ = (.ok true, s₁) :=
    acceptable_crammed path fresh (by rw [hclient₁]; exact hs)
  have hget : crammed.get path s.world = (some (), ()) := rfl
  refine ⟨s₂, ?_, hclient₂.trans hclient₁⟩
  rw [cacheGet, isset_bind, if_neg hset, get_bind_some hget]
  dsimp only
  rw [considerEntry, setC_bind, Eff.bind_ok hfresh, Eff.bind_ok hok, if_pos rfl,
    Eff.bind_ok haccept]
  rfl

private theorem askOrigin_crammed (path body : Str) (s : Scene Unit Unit) :
    ∃ s', askOrigin crammed cfg path body s = answer crammed () s' ∧ s'.client = s.client := by
  obtain ⟨_, s₁, hdress, hclient₁⟩ := client_of_calm crammed
    (fun hK ↦ calm_dress crammed cfg hK.toAbreast path () true) { s with c := some () }
  obtain ⟨stored, s₂, hput, hclient₂⟩ := client_of_calm crammed
    (fun hK ↦ calm_cachePut crammed hK path ()) s₁
  have hrequest : crammed.request path s.world = (.ok (), ()) := rfl
  refine ⟨{ s₂ with respIsCached := stored }, ?_, hclient₂.trans hclient₁⟩
  rw [askOrigin, call_bind hrequest]
  dsimp only
  rw [setC_bind, Eff.bind_ok hdress, Eff.bind_ok hput, setCached_bind]

/-- In a crammed world every lookup ends with an answer. -/
private theorem getStyle_crammed (path body : Str) {s : Scene Unit Unit}
    (hs : s.client.clCacheControl.isset .onlyIfCached →
      s.client.clCacheControl.flags = [.onlyIfCached]) :
    ∃ s', getStyle crammed cfg path body s = answer crammed () s' ∧ s'.client = s.client := by
  by_cases hset : s.client.clCacheControl.isset .onlyIfCached
  · obtain ⟨s₁, hget, hclient₁⟩ := cacheGet_crammed path (hs hset)
    refine ⟨{ s₁ with respIsCached := true }, ?_, hclient₁⟩
    rw [getStyle, Eff.bind_ok hget, setCached_bind]
    rfl
  · obtain ⟨hit, s₁, hget, hclient₁⟩ := client_of_calm crammed (fun hK ↦ calm_cacheGet crammed hK path) s
    rw [getStyle, Eff.bind_ok hget, setCached_bind]
    cases hit with
    | some r => exact ⟨{ s₁ with respIsCached := true }, rfl, hclient₁⟩
    | none =>
      obtain ⟨s₂, hask, hclient₂⟩ :=
        askOrigin_crammed cfg path body { s₁ with respIsCached := false }
      refine ⟨s₂, ?_, hclient₂.trans hclient₁⟩
      rw [← hask]
      simp only [isset_bind]
      rw [if_neg (by rw [hclient₁]; exact hset)]
      rfl

private theorem answer_crammed (s : Scene Unit Unit) (hhead : s.client.meth ≠ .head) :
    answer crammed () s =
      if s.client.clAcceptEnc = .identity then
        (.error .internalServerError, { s with uncompressed := none })
      else (.ok (some { hdrs := (CacheEntry.print .blank).1.text, body := [] }), s) := by
  rw [answer, asks_bind, if_neg hhead, asks_bind]
  cases s.client.clAcceptEnc <;> rfl

/-- The coding that the client accepts decides over the body. -/
theorem bodyOf_crammed {s : Scene Unit Unit} (hm : s.client.meth.reads)
    (hhead : s.client.meth ≠ .head)
    (hs : s.client.clCacheControl.isset .onlyIfCached →
      s.client.clCacheControl.flags = [.onlyIfCached]) (body : Str) :
    bodyOf (tryCatch (dispatch crammed cfg s.client.meth s.client.path body)
      (fun e ↦ do return some (← onOops crammed e)) s).1 =
    some (if s.client.clAcceptEnc = .identity then Status.internalServerError.str else []) := by
  obtain ⟨s', hstyle, hclient⟩ := getStyle_crammed cfg s.client.path body hs
  have hanswer := answer_crammed s' (by rw [hclient]; exact hhead)
  rw [← hstyle, hclient] at hanswer
  rw [dispatch_of_reads cfg hm]
  split at hanswer
  · next henc =>
    rw [Eff.tryCatch_error hanswer, if_pos henc]
    rfl
  · next henc =>
    rw [Eff.tryCatch_ok hanswer, if_neg henc]
    rfl

/-- A world with an entry of a given age and lifetime in the cache, whose file is gone. -/
def shelf (age lifetime : Int) : World Unit Unit :=
  { World.inert { CacheEntry.blank with requestTime := -age, expiresValue := lifetime } with
    get := fun _ _ ↦ (some (), ())
    malloc := fun _ _ ↦ (true, ())
    uncompress := fun _ _ ↦ some [] }

section Shelf

variable (age lifetime : Int)

private theorem currentAge_shelf (s : Scene Unit Unit) :
    currentAge (shelf age lifetime) () s = (.ok age, s) := by
  have hage : ((shelf age lifetime).load () ()).currentAge 0 0 = age := by
    simp [shelf, World.inert, CacheEntry.blank, CacheEntry.new, CacheEntry.currentAge,
      CacheEntry.correctedInitialAge, CacheEntry.correctedReceivedAge, CacheEntry.responseDelay,
      CacheEntry.residentTime]
  exact congrArg (fun a ↦ (Except.ok a, s)) hage

private theorem freshnessLifetime_shelf :
    ((shelf age lifetime).load () ()).freshnessLifetime = lifetime := by
  simp [shelf, World.inert, CacheEntry.freshnessLifetime, CacheEntry.blank, CacheEntry.new]

private theorem responseIsFresh_shelf (s : Scene Unit Unit) :
    responseIsFresh (shelf age lifetime) () s = (.ok (decide (age < lifetime)), s) := by
  rw [responseIsFresh, Eff.bind_ok (currentAge_shelf age lifetime s)]
  exact congrArg (fun l ↦ (Except.ok (decide (age < l)), s)) (freshnessLifetime_shelf age lifetime)

/-- What an entry on the shelf has to meet, by the one directive that is set. -/
def meets (cc : CacheControl) : CacheOpt → Bool
  | .useMinFresh => signed 64 (age + cc.minFresh) ≤ lifetime
  | .useMaxAge => age ≤ cc.maxAge
  | .useMaxStale => signed 64 (age - lifetime) ≤ cc.maxStale
  | _ => false

/-- The directive comes with a value; only a stale entry is held against `max-stale`. -/
def Asks : CacheOpt → Prop
  | .useMinFresh | .useMaxAge => True
  | .useMaxStale => lifetime ≤ age
  | _ => False

private theorem acceptable_shelf (path : Str) {s : Scene Unit Unit} {o : CacheOpt}
    (hs : s.client.clCacheControl.flags = [o]) (ho : Asks age lifetime o) :
    acceptable (shelf age lifetime) path () (decide (age < lifetime)) s =
      (.ok (meets age lifetime s.client.clCacheControl o), s) := by
  have hset := isset_of_flags hs
  have hage := currentAge_shelf age lifetime s
  have hlife := freshnessLifetime_shelf age lifetime
  have hvalid : freshOrValid (shelf age lifetime) path () (decide (age < lifetime)) s =
      (.ok (decide (age < lifetime)), s) := by
    cases decide (age < lifetime) <;> rfl
  rw [acceptable, Eff.bind_ok hvalid]
  cases o with
  | useMinFresh => simp [isset_bind, hset, load_bind, Eff.bind_ok hage, asks, hlife, meets]
  | useMaxAge =>
    have hown : ((shelf age lifetime).load () s.world).useMaxAge = false := rfl
    by_cases hle : age ≤ s.client.clCacheControl.maxAge <;>
      simp [isset_bind, hset, load_bind, asks_bind, Eff.bind_ok hage, hown, hle, meets]
  | useMaxStale =>
    have hfresh : ¬ age < lifetime := not_lt.mpr ho
    simp [isset_bind, hset, hfresh, withinMaxStale, load_bind, Eff.bind_ok hage, asks, hlife, meets]
  | _ => cases ho

private theorem answer_shelf (s : Scene Unit Unit) :
    bodyOf (answer (shelf age lifetime) () s).1 = some [] := by
  rw [answer, asks_bind]
  split
  · rfl
  · rw [asks_bind]
    split
    · rfl
    · split
      · rfl
      · rfl

private theorem considerEntry_shelf (path : Str) {s : Scene Unit Unit} {o : CacheOpt}
    (hs : s.client.clCacheControl.flags = [o]) (ho : Asks age lifetime o) :
    ∃ s', considerEntry (shelf age lifetime) path () s =
      (.ok (if meets age lifetime s.client.clCacheControl o then some () else none), s') ∧
      s'.client = s.client := by
  have hok := acceptable_shelf age lifetime path (s := { s with c := some () }) hs ho
  rw [considerEntry, setC_bind, Eff.bind_ok (responseIsFresh_shelf age lifetime _),
    Eff.bind_ok hok]
  cases meets age lifetime s.client.clCacheControl o with
  | true =>
    generalize decide (age < lifetime) = fresh
    cases fresh <;> exact ⟨_, rfl, rfl⟩
  | false => exact ⟨_, rfl, rfl⟩

/-- Whether the entry meets the directive decides over the body. -/
theorem bodyOf_shelf {s : Scene Unit Unit} (hm : s.client.meth.reads) {o : CacheOpt}
    (hs : s.client.clCacheControl.flags = [o]) (ho : Asks age lifetime o) (body : Str) :
    bodyOf (tryCatch (dispatch (shelf age lifetime) cfg s.client.meth s.client.path body)
      (fun e ↦ do return some (← onOops (shelf age lifetime) e)) s).1 =
    some (if meets age lifetime s.client.clCacheControl o then [] else Status.notFound.str) := by
  have hset := isset_of_flags hs
  have hne : o ≠ .noCache ∧ o ≠ .onlyIfCached := by
    constructor <;> rintro rfl <;> exact ho
  obtain ⟨s', hconsider, hclient⟩ := considerEntry_shelf age lifetime s.client.path
    (s := { s with refs := s.client.path :: s.refs }) hs ho
  have hget : cacheGet (shelf age lifetime) s.client.path s =
      (.ok (if meets age lifetime s.client.clCacheControl o then some () else none), s') := by
    have hfound : (shelf age lifetime).get s.client.path s.world = (some (), ()) := rfl
    rw [cacheGet, isset_bind, if_neg (by simp [hset, hne.1.symm]), get_bind_some hfound]
    exact hconsider
  rw [dispatch_of_reads cfg hm]
  cases hmeets : meets age lifetime s.client.clCacheControl o with
  | true =>
    rw [hmeets] at hget
    have hstyle : getStyle (shelf age lifetime) cfg s.client.path body s =
        answer (shelf age lifetime) () { s' with respIsCached := true } := by
      rw [getStyle, Eff.bind_ok hget]
      rfl
    have hanswer := answer_shelf age lifetime { s' with respIsCached := true }
    rw [← hstyle] at hanswer
    cases hr : getStyle (shelf age lifetime) cfg s.client.path body s with
    | mk r s'' =>
      rw [hr] at hanswer
      cases r with
      | ok a =>
        rw [Eff.tryCatch_ok hr]
        exact hanswer
      | error e => cases hanswer
  | false =>
    rw [hmeets] at hget
    have hstyle : getStyle (shelf age lifetime) cfg s.client.path body s =
        (.error .notFound, { s' with respIsCached := false, c := none }) := by
      have hopen : ¬ s'.client.clCacheControl.isset .onlyIfCached := by
        rw [hclient]
        simp [hset, hne.2.symm]
      rw [getStyle, Eff.bind_ok hget, setCached_bind]
      simp only [Bool.false_eq_true, if_false, isset_bind, if_neg hopen]
      rfl
    rw [Eff.tryCatch_error hstyle]
    rfl

end Shelf

section Necessity

variable {hs : List Hdrs} {h : Hdrs} {body : Str} {w : Client}

/-- A request whose headers a fresh work accepts is accepted by any other one. -/
theorem browseReq_of_asked {m : Method} (hm : asked cfg h = some m) (w : Client) :
    ∃ w' v, Client.browseReq cfg { w with reqHdrs := h } = (.ok (), w') ∧
      Client.browseReq cfg { Client.new with reqHdrs := h } = (.ok (), v) ∧
      w'.meth = m ∧ v.meth = m := by
  obtain ⟨hr, hsame⟩ := Client.browseReq_congr cfg (w := { w with reqHdrs := h })
    (v := { Client.new with reqHdrs := h }) rfl
  unfold asked at hm
  split at hm
  · next v hv =>
    cases hm
    cases hw : Client.browseReq cfg { w with reqHdrs := h } with
    | mk r w' =>
      rw [hw, hv] at hr hsame
      change r = .ok () at hr
      subst hr
      exact ⟨w', v, rfl, hv, (hsame rfl).2.1, rfl⟩
  · cases hm

/-- What of the cache directives a request and a fresh one end up with. -/
theorem readCacheControl_of_browse {w' : Client}
    (hw : Client.browseReq cfg { w with reqHdrs := h } = (.ok (), w')) :
    w'.clCacheControl = (readCacheControl (h.hdr .cacheControl) w.clCacheControl).2 :=
  (Client.browsed hw).clCacheControl

private theorem flags_of_directive {w' : Client} (hflags : w.clCacheControl.flags = [])
    (hw : Client.browseReq cfg { w with reqHdrs := h } = (.ok (), w')) :
    w'.clCacheControl.flags = (directive (h.hdr .cacheControl)).toList := by
  rw [readCacheControl_of_browse cfg hw, readCacheControl_eq, flags_obey, hflags, List.append_nil]

/-- Without carry-over, an old work and a fresh one judge every entry alike. -/
theorem NoCarryOver.verdict (hno : NoCarryOver cfg hs h body)
    (hafter : Client.after cfg .new hs = some w) (hm : (asked cfg h).any Method.reads)
    {o : CacheOpt} (hdir : directive (h.hdr .cacheControl) = some o) (age lifetime : Int)
    (ho : Asks age lifetime o) :
    meets age lifetime (readCacheControl (h.hdr .cacheControl) w.clCacheControl).2 o =
      meets age lifetime (readCacheControl (h.hdr .cacheControl) Client.new.clCacheControl).2 o := by
  obtain ⟨m, hasked, hreads⟩ := (Option.any_eq_true _ _).mp hm
  obtain ⟨w', v, hw, hv, hmeth, hmeth'⟩ := browseReq_of_asked cfg hasked w
  have hflags := flags_of_directive cfg (Client.flags_after cfg rfl hafter) hw
  have hflags' := flags_of_directive cfg (w := .new) rfl hv
  rw [hdir] at hflags hflags'
  have hbody := hno.body cfg hafter hw hv (shelf age lifetime)
    (fun c ↦ some (if meets age lifetime c.clCacheControl o then [] else Status.notFound.str))
    (by
      rintro s (rfl | rfl)
      · exact bodyOf_shelf cfg age lifetime (by rw [hmeth]; exact hreads) hflags ho body
      · exact bodyOf_shelf cfg age lifetime (by rw [hmeth']; exact hreads) hflags' ho body)
  rw [← readCacheControl_of_browse cfg hw, ← readCacheControl_of_browse (w := .new) cfg hv]
  generalize meets age lifetime w'.clCacheControl o = b at hbody
  generalize meets age lifetime v.clCacheControl o = b' at hbody
  revert hbody
  cases b <;> cases b' <;> decide

theorem NoCarryOver.clContentEnc (hno : NoCarryOver cfg hs h body)
    (hafter : Client.after cfg .new hs = some w) (hm : (asked cfg h).any Method.writes)
    (hline : h.hdr .contentEncoding = []) : w.clContentEnc = .identity := by
  obtain ⟨m, hasked, hwrites⟩ := (Option.any_eq_true _ _).mp hm
  obtain ⟨w', v, hw, hv, hmeth, hmeth'⟩ := browseReq_of_asked cfg hasked w
  have hkept {w w' : Client}
      (hw : Client.browseReq cfg { w with reqHdrs := h } = (.ok (), w')) :
      w'.clContentEnc = w.clContentEnc :=
    (Client.browsed hw).clContentEnc.of_empty hline
  have hbody := hno.body cfg hafter hw hv plainOnly
    (fun c ↦ some (if c.clContentEnc = .identity then Status.ok else Status.notFound).str)
    (by
      rintro s (rfl | rfl)
      · exact bodyOf_plainOnly cfg (by rw [hmeth]; exact hwrites) body
      · exact bodyOf_plainOnly cfg (by rw [hmeth']; exact hwrites) body)
  rw [hkept hw, hkept (w := .new) hv] at hbody
  by_contra hne
  rw [if_neg hne] at hbody
  revert hbody
  decide

theorem NoCarryOver.clAcceptEnc (hno : NoCarryOver cfg hs h body)
    (hafter : Client.after cfg .new hs = some w)
    (hm : (asked cfg h).any fun m ↦ m.reads && m ≠ .head)
    (hline : h.hdr .acceptEncoding = []) : w.clAcceptEnc = .identity := by
  obtain ⟨m, hasked, hmethod⟩ := (Option.any_eq_true _ _).mp hm
  obtain ⟨hreads, hhead⟩ : m.reads = true ∧ m ≠ .head := by simpa using hmethod
  obtain ⟨w', v, hw, hv, hmeth, hmeth'⟩ := browseReq_of_asked cfg hasked w
  have hkept {w w' : Client}
      (hw : Client.browseReq cfg { w with reqHdrs := h } = (.ok (), w')) :
      w'.clAcceptEnc = w.clAcceptEnc :=
    (Client.browsed hw).clAcceptEnc.of_empty hline
  have honly {w w' : Client} (hflags : w.clCacheControl.flags = [])
      (hw : Client.browseReq cfg { w with reqHdrs := h } = (.ok (), w')) :
      w'.clCacheControl.isset .onlyIfCached → w'.clCacheControl.flags = [.onlyIfCached] := by
    intro ho
    have hset := flags_of_directive cfg hflags hw
    rw [readCacheControl_of_browse cfg hw, isset_readCacheControl _ hflags] at ho
    rw [hset, ho]
    rfl
  have hbody := hno.body cfg hafter hw hv crammed
    (fun c ↦ some (if c.clAcceptEnc = .identity then Status.internalServerError.str else []))
    (by
      rintro s (rfl | rfl)
      · exact bodyOf_crammed cfg (by rw [hmeth]; exact hreads) (by rw [hmeth]; exact hhead)
          (honly (Client.flags_after cfg rfl hafter) hw) body
      · exact bodyOf_crammed cfg (by rw [hmeth']; exact hreads) (by rw [hmeth']; exact hhead)
          (honly (w := .new) rfl hv) body)
  rw [hkept hw, hkept (w := .new) hv] at hbody
  by_contra hne
  rw [if_neg hne] at hbody
  revert hbody
  decide

private theorem timed_new : Client.new.clCacheControl.Timed := ⟨by decide, by decide, by decide⟩

/-- Carry-over is absent only where nothing is left over. -/
private theorem NoCarryOver.restored (hno : NoCarryOver cfg hs h body)
    (hafter : Client.after cfg .new hs = some w) : Restored cfg w h where
  clContentEnc := hno.clContentEnc cfg hafter
  clAcceptEnc := hno.clAcceptEnc cfg hafter
  minFresh := by
    intro hm hdir hold
    have htimed := (Client.timed_after cfg timed_new hafter).minFresh
    have hverdict (lifetime : Int) :
        w.clCacheControl.minFresh ≤ lifetime ↔ 0 ≤ lifetime := by
      have h := hno.verdict cfg hafter hm hdir 0 lifetime trivial
      simp only [meets, zero_add, readCacheControl_minFresh hdir,
        extractAfterTwoWords_of_noValue hold, decide_eq_decide, htimed.signed] at h
      exact h
    have hle := (hverdict 0).mpr le_rfl
    have hge := (hverdict w.clCacheControl.minFresh).mp le_rfl
    omega
  maxAge := by
    intro hm hdir hold
    have hverdict (age : Int) : age ≤ w.clCacheControl.maxAge ↔ age ≤ 0 := by
      have h := hno.verdict cfg hafter hm hdir age 0 trivial
      simp only [meets, readCacheControl_maxAge hdir, extractAfterTwoWords_of_noValue hold,
        decide_eq_decide] at h
      exact h
    have hle := (hverdict w.clCacheControl.maxAge).mp le_rfl
    have hge := (hverdict 0).mpr le_rfl
    omega
  maxStale := by
    intro hm hdir heq hold
    have htimed := (Client.timed_after cfg timed_new hafter).maxStale
    have hverdict (age : Int) (hage : 0 ≤ age) (ht : IsTime age) :
        age ≤ w.clCacheControl.maxStale ↔ age ≤ 0 := by
      have h := hno.verdict cfg hafter hm hdir age 0 hage
      simp only [meets, sub_zero, readCacheControl_maxStale hdir, if_pos heq,
        extractAfterTwoWords_of_noValue hold, decide_eq_decide, ht.signed] at h
      exact h
    have hge := (hverdict 0 le_rfl (by decide)).mpr le_rfl
    have hle := (hverdict w.clCacheControl.maxStale hge htimed).mp le_rfl
    omega

end Necessity

/-- For every history of requests and every next one: in all worlds the next request comes to the
same as on a fresh connection if and only if nothing it would use is left over. -/
theorem noCarryOver_iff (hs : List Hdrs) (h : Hdrs) (body : Str) :
    NoCarryOver cfg hs h body ↔ ∀ w, Client.after cfg .new hs = some w → Restored cfg w h :=
  ⟨fun hno _ hafter ↦ hno.restored cfg hafter, noCarryOver_of_restored cfg body⟩

/-- A request without a coding of its own is taken to be coded like the one before it. -/
theorem not_noCarryOver_of_coding :
    ¬ ∀ (hs : List Hdrs) (h : Hdrs) (body : Str), NoCarryOver .lax hs h body := by
  intro hall
  have hno := hall
    [{ reqln := "PUT /a HTTP/1.1".toList
       hdr := fun hd ↦ if hd = .contentEncoding then "Content-Encoding: gzip".toList else [] }]
    (.ofReqln "PUT /b HTTP/1.1") []
  have hsame := hno Unit Unit plainOnly () () [⟨_, [], ()⟩] _ rfl rfl
  exact absurd (congrArg (fun o ↦ bodyOf o.1) hsame) (by decide)

end Filth
