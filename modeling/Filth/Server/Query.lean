import Filth.Base.Words
import Filth.Server.Browsing

/-!
# The query and the path

What stands behind the first question mark of a URI is the query, `src/HTTP_Server_Work.cpp:191–200`.
It has no influence on the path, with two exceptions: the asterisk and the single slash are
compared with the whole URI, before the query is cut off.
-/

namespace Filth

open Base

section Query

variable {max : Limit} {u q : Str}

/-- The query is what follows the first question mark. -/
private theorem splitQuery_append (hu : '?' ∉ u) : splitQuery (u ++ '?' :: q) = some (u, q) := by
  rw [splitQuery, if_pos (by simp), takeWhile_ne_append hu]
  simp

/-- Behind an asterisk there may be nothing. -/
theorem parseuri_star (hlen : max.exceeded (['*'] ++ '?' :: q).length = false) (path query : Str) :
    parseuri max (['*'] ++ '?' :: q) path query = (.error .badRequest, path, query) := by
  unfold parseuri
  rw [if_neg (by rw [hlen]; decide), if_neg (by simp), if_pos (.inl (by simp))]

/-- A query is cut off and kept, and the path is that of the URI without it. -/
theorem parseuri_append (hu : '?' ∉ u) (hq : ¬ ['.', '.'] <:+: q)
    (hlen : max.exceeded (u ++ '?' :: q).length = false) (hroot : u ≠ ['/']) (hstar : u ≠ ['*'])
    {path query p q₀ : Str} (haccepted : parseuri max u path query = (.ok (), p, q₀))
    (path' query' : Str) : parseuri max (u ++ '?' :: q) path' query' = (.ok (), p, q) := by
  rcases parseuri_cases haccepted with ⟨hu', -⟩ | ⟨hu', -⟩ | ⟨rest, rfl, hne, hdots, rfl⟩
  · exact absurd hu' hstar
  · exact absurd hu' hroot
  · have hdots' : ¬ ['.', '.'] <:+: '/' :: rest ++ '?' :: q := by
      rw [infix_append_cons_iff (by decide)]
      exact not_or.mpr ⟨hdots, hq⟩
    have hrest : rest.takeWhile (fun c ↦ decide (c ≠ '?')) = rest :=
      takeWhile_ne_eq_self fun hmem ↦ hu (List.mem_cons_of_mem '/' hmem)
    unfold parseuri
    rw [if_neg (by rw [hlen]; decide), if_neg (by simp), if_neg (not_or.mpr ⟨by simp, hdots'⟩),
      if_neg (by simp), splitQuery_append hu, hrest]
    rfl

end Query

namespace Client

variable {cfg : Config}

/-- A work with a given path and query. -/
def AsksFor (path query : Str) (w : Client) : Prop := w.path = path ∧ w.query = query

private theorem spared_asksFor (path query : Str) : Spared (AsksFor path query) :=
  ⟨fun h _ _ _ ↦ h, fun h _ ↦ h, fun h _ ↦ h, fun h _ ↦ h, fun h ↦ h⟩

/-- After the request line nothing changes the path and the query. -/
theorem asksFor_browseReq (cfg : Config) (w : Client) :
    (browseReq cfg w).2.AsksFor (browseReqln cfg w).2.path (browseReqln cfg w).2.query := by
  cases hw : browseReqln cfg w with
  | mk r w₁ =>
    cases r with
    | error e =>
      rw [browseReq, Eff.bind_error hw]
      exact ⟨rfl, rfl⟩
    | ok u =>
      have hrest : Eff.Keeps (AsksFor w₁.path w₁.query) (do
          browseAcceptEncoding
          browseCacheControl
          browseConnection
          browseContentEncoding
          browseExpect
          browseMaxForwards) :=
        (spared_asksFor w₁.path w₁.query).headers fun _ _ h ↦ h
      obtain ⟨hok, herr⟩ := hrest w₁ ⟨rfl, rfl⟩
      rw [browseReq, Eff.bind_ok hw]
      generalize (do
          browseAcceptEncoding
          browseCacheControl
          browseConnection
          browseContentEncoding
          browseExpect
          browseMaxForwards : ClientM Unit) w₁ = o at hok herr
      obtain ⟨r, w₂⟩ := o
      cases r with
      | ok u => exact hok u w₂ rfl
      | error e => exact herr e w₂ rfl

end Client

/-- A query makes no difference: the URI with it is accepted, the query is kept as it is, and a
request for the URI with it leads to the path that a request for the URI alone leads to. -/
structure QueryIgnored (cfg : Config) (u q : Str) : Prop where
  accepted (path query : Str) :
    ∃ p, parseuri cfg.maxReqUri (u ++ '?' :: q) path query = (.ok (), p, q)
  path (w : Client) (reqln reqln' : Str) (huri : uriOf reqln = u)
    (huri' : uriOf reqln' = u ++ '?' :: q) (hmeth : (word reqln').1 = (word reqln).1)
    (hversion : versionOf reqln' = versionOf reqln) :
    (Client.browseReq cfg { w with reqHdrs.reqln := reqln' }).2.path =
      (Client.browseReq cfg { w with reqHdrs.reqln := reqln }).2.path

/-- A URI that is accepted, and is not a slash only, is accepted with any query that has no two
dots in a row and leads to the same path, unless it is the asterisk: behind that a query is
refused. -/
theorem queryIgnored_of_accepted {cfg : Config} {u q : Str} (hu : '?' ∉ u)
    (haccepted : (parseuri cfg.maxReqUri u [] []).1 = .ok ()) (hq : ¬ ['.', '.'] <:+: q)
    (hlen : cfg.maxReqUri.exceeded (u ++ '?' :: q).length = false) (hroot : u ≠ ['/']) :
    if u = ['*'] then
      ∀ path query, parseuri cfg.maxReqUri (u ++ '?' :: q) path query =
        (.error .badRequest, path, query)
    else QueryIgnored cfg u q := by
  split
  · next hstar =>
    subst hstar
    exact parseuri_star hlen
  · next hstar =>
    -- the path of the URI alone, whatever path and query there were before
    have hcongr (path query : Str) : ∃ p q₀, parseuri cfg.maxReqUri u path query = (.ok (), p, q₀) := by
      have hr := (parseuri_congr cfg.maxReqUri u path query [] []).1.trans haccepted
      generalize parseuri cfg.maxReqUri u path query = o at hr ⊢
      obtain ⟨r, p, q₀⟩ := o
      change r = _ at hr
      exact ⟨p, q₀, by rw [hr]⟩
    constructor
    · intro path query
      obtain ⟨p, q₀, hp⟩ := hcongr [] []
      exact ⟨p, parseuri_append hu hq hlen hroot hstar hp path query⟩
    · intro w reqln reqln' huri huri' hmeth hversion
      obtain ⟨p, q₀, hp⟩ := hcongr w.path w.query
      have hp' := parseuri_append hu hq hlen hroot hstar hp w.path w.query
      rw [(Client.asksFor_browseReq cfg _).1, (Client.asksFor_browseReq cfg _).1]
      simp only [Client.browseReqln, parsereqln, hmeth, hversion, huri, huri', hp, hp']
      cases Method.find (word reqln).1 with
      | none => rfl
      | some m => by_cases hv : versionOf reqln = httpVersion <;> simp [hv]

/-- A page with a query. -/
theorem queryIgnored_of_accepted_page :
    if "/a.html".toList = ['*'] then
      ∀ path query, parseuri (some 20) ("/a.html".toList ++ '?' :: "x=1".toList) path query =
        (.error .badRequest, path, query)
    else QueryIgnored { Config.lax with maxReqUri := some 20 } "/a.html".toList "x=1".toList :=
  @queryIgnored_of_accepted { Config.lax with maxReqUri := some 20 } _ _ (by decide)
    (by decide) (by decide) (by decide) (by decide)

/-- The asterisk is accepted, and with a query it is not. -/
theorem not_queryIgnored_star : ¬ ∀ (cfg : Config) (u q : Str), '?' ∉ u →
    (parseuri cfg.maxReqUri u [] []).1 = .ok () → ¬ ['.', '.'] <:+: q →
    cfg.maxReqUri.exceeded (u ++ '?' :: q).length = false → QueryIgnored cfg u q := by
  intro h
  obtain ⟨p, hp⟩ := (h .lax ['*'] ['x'] (by decide) (by decide) (by decide) rfl).accepted [] []
  have hrefused : parseuri Config.lax.maxReqUri (['*'] ++ '?' :: ['x']) [] [] =
      (.error .badRequest, [], []) := parseuri_star rfl [] []
  rw [hrefused] at hp
  cases hp

end Filth
