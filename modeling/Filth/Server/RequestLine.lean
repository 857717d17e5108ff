import Filth.Http.Constants

/-!
# Request lines and the paths they name

`HTTP_Server_Work::parsereqln` and `parseuri`, `src/HTTP_Server_Work.cpp:158–201`, and the
default resource, `src/HTTP_2616_Server_Work.cpp:346–349`. A URI must start with a slash and
must not contain two dots in a row; its first slash is cut off. The path is therefore relative
unless the URI starts with two slashes.
-/

namespace Filth

open Base

/-- Divide a URI at its first question mark, `src/HTTP_Server_Work.cpp:191–200`. -/
def splitQuery (uri : Str) : Option (Str × Str) :=
  if '?' ∈ uri then
    some (uri.takeWhile (· ≠ '?'), uri.drop ((uri.takeWhile (· ≠ '?')).length + 1))
  else none

/-- A URI without a query. -/
theorem splitQuery_eq_none {uri : Str} (h : '?' ∉ uri) : splitQuery uri = none := if_neg h

/-- `parseuri`, with the path and the query it leaves; a URI that is refused leaves both;
`src/HTTP_Server_Work.cpp:173–201`. -/
def parseuri (max : Limit) (uri path query : Str) : Except Status Unit × Str × Str :=
  if max.exceeded uri.length then (.error .requestURITooLong, path, query)
  else if uri = ['*'] then (.ok (), ['*'], query)
  else if uri.head? ≠ some '/' ∨ ['.', '.'] <:+: uri then (.error .badRequest, path, query)
  else if uri = ['/'] then (.ok (), ['/'], query)
  else match splitQuery uri with
    | some (front, rest) => (.ok (), front.drop 1, rest)
    | none => (.ok (), uri.drop 1, query)

/-- The second word of a request line. -/
def uriOf (reqln : Str) : Str := (word (word reqln).2).1

/-- The third word of a request line. -/
def versionOf (reqln : Str) : Str := (word (word (word reqln).2).2).1

/-- `parsereqln`, with the method, the path and the query it leaves;
`src/HTTP_Server_Work.cpp:159–171`. The version is looked at last, when the path is already in
place. -/
def parsereqln (max : Limit) (reqln : Str) (meth : Method) (path query : Str) :
    Except Status Unit × Method × Str × Str :=
  match Method.find (word reqln).1 with
  | none => (.error .badRequest, meth, path, query)
  | some m =>
    match parseuri max (uriOf reqln) path query with
    | (.error e, path, query) => (.error e, m, path, query)
    | (.ok (), path, query) =>
      if versionOf reqln = httpVersion then (.ok (), m, path, query)
      else (.error .httpVersionNotSupported, m, path, query)

/-- The path that the file system gets to see. -/
def resolve (defaultResource path : Str) : Str := if path = ['/'] then defaultResource else path

/-- Two dots between slashes, or between a slash and an end of the path. -/
def HasDotDot (path : Str) : Prop :=
  ∃ a b, path = a ++ '.' :: '.' :: b ∧ (a = [] ∨ a.getLast? = some '/') ∧
    (b = [] ∨ b.head? = some '/')

/-- Resolved against a directory, the path names something beneath it. -/
def Confined (path : Str) : Prop := path.head? ≠ some '/' ∧ ¬ HasDotDot path

/-- What a URI that is accepted looks like, and the path that is taken from it. -/
theorem parseuri_cases {max : Limit} {uri path query path' query' : Str}
    (h : parseuri max uri path query = (.ok (), path', query')) :
    uri = ['*'] ∧ path' = ['*'] ∨ uri = ['/'] ∧ path' = ['/'] ∨
    ∃ rest, uri = '/' :: rest ∧ rest ≠ [] ∧ ¬ ['.', '.'] <:+: uri ∧
      path' = rest.takeWhile (· ≠ '?') := by
  unfold parseuri at h
  split at h
  · cases h
  · split at h
    · next hstar =>
      cases h
      exact .inl ⟨hstar, rfl⟩
    · split at h
      · cases h
      · next hok =>
        obtain ⟨hhead, hdots⟩ := not_or.mp hok
        obtain ⟨rest, rfl⟩ : ∃ rest, uri = '/' :: rest := by
          cases uri with
          | nil => exact absurd nofun hhead
          | cons c rest => exact ⟨rest, by simpa using hhead⟩
        split at h
        · next hroot =>
          cases h
          exact .inr (.inl ⟨hroot, rfl⟩)
        · next hroot =>
          have hpath : path' = rest.takeWhile (fun c ↦ decide (c ≠ '?')) := by
            simp only [splitQuery, List.mem_cons] at h
            by_cases hq : '?' ∈ rest
            · simp [hq] at h
              simp [h.1]
            · simp [hq] at h
              rw [← h.1, takeWhile_ne_eq_self hq]
          refine .inr (.inr ⟨rest, rfl, ?_, hdots, hpath⟩)
          rintro rfl
          exact hroot rfl

/-- Without two dots in a row there are none between slashes. -/
theorem not_hasDotDot {path : Str} (h : ¬ ['.', '.'] <:+: path) : ¬ HasDotDot path := by
  rintro ⟨a, b, rfl, -⟩
  exact h ⟨a, b, by simp⟩

/-- A request line that is accepted has an accepted URI. -/
theorem parseuri_of_parsereqln {max : Limit} {reqln : Str} {m m' : Method}
    {path query path' query' : Str}
    (h : parsereqln max reqln m path query = (.ok (), m', path', query')) :
    parseuri max (uriOf reqln) path query = (.ok (), path', query') := by
  unfold parsereqln at h
  split at h
  · cases h
  · split at h
    · cases h
    · next p q hp =>
      split at h
      · cases h
        exact hp
      · cases h

/-- For every request line that is accepted: what the file system gets to see is beneath the
mount directory if and only if the URI does not start with two slashes and a third character
that begins a longer path. -/
theorem confined_iff (max : Limit) (reqln : Str) (m m' : Method)
    (path query path' query' defaultResource : Str) (hdefault : Confined defaultResource)
    (h : parsereqln max reqln m path query = (.ok (), m', path', query')) :
    Confined (resolve defaultResource path') ↔
      ∀ c rest, uriOf reqln = '/' :: '/' :: c :: rest → c = '?' := by
  rcases parseuri_cases (parseuri_of_parsereqln h) with
    ⟨huri, rfl⟩ | ⟨huri, rfl⟩ | ⟨rest, huri, hne, hdots, rfl⟩ <;> rw [huri]
  · have hstar : Confined ['*'] := ⟨by decide, not_hasDotDot (by decide)⟩
    exact iff_of_true hstar nofun
  · exact iff_of_true hdefault nofun
  · rw [huri] at hdots
    have hsub : rest.takeWhile (fun c ↦ decide (c ≠ '?')) <:+: '/' :: rest :=
      (List.takeWhile_prefix _).isInfix.trans (List.suffix_cons _ _).isInfix
    have hclean : ¬ HasDotDot (rest.takeWhile fun c ↦ decide (c ≠ '?')) :=
      not_hasDotDot fun h ↦ hdots (h.trans hsub)
    unfold resolve
    split
    · next hroot =>
      apply iff_of_true hdefault
      intro c r hr
      cases hr
      by_contra hc
      simp [hc] at hroot
    · next hroot =>
      constructor
      · rintro ⟨hhead, -⟩ c r hr
        cases hr
        simp at hhead
      · intro hslash
        refine ⟨?_, hclean⟩
        intro hhead
        obtain ⟨d, r, rfl⟩ := List.exists_cons_of_ne_nil hne
        by_cases hd : d = '?'
        · simp [hd] at hhead
        · simp only [List.takeWhile_cons, hd, ne_eq, not_false_eq_true, decide_true, if_true,
            List.head?_cons, Option.some.injEq] at hhead
          subst hhead
          cases r with
          | nil => exact hroot rfl
          | cons c r =>
            have hc := hslash c r rfl
            subst hc
            exact hroot (by simp)

/-- The shape of a request whose path leaves no doubt. -/
theorem confined_iff_index : Confined (resolve "index.html".toList "pages/a.html".toList) ↔
    ∀ c rest, uriOf "GET /pages/a.html?x=1 HTTP/1.1".toList = '/' :: '/' :: c :: rest → c = '?' := by
  apply confined_iff none "GET /pages/a.html?x=1 HTTP/1.1".toList .get .get [] [] _ "x=1".toList
  · exact ⟨by decide, not_hasDotDot (by decide)⟩
  · decide

/-- Two slashes name a file outside of the mount directory. -/
theorem not_confined_of_two_slashes : ¬ ∀ (max : Limit) (reqln : Str) (m m' : Method)
    (path query path' query' defaultResource : Str), Confined defaultResource →
    parsereqln max reqln m path query = (.ok (), m', path', query') →
    Confined (resolve defaultResource path') := by
  intro h
  have hconf := h none "GET //etc/passwd HTTP/1.1".toList .get .get [] [] "/etc/passwd".toList []
    "index.html".toList ⟨by decide, not_hasDotDot (by decide)⟩ (by decide)
  exact hconf.1 (by decide)

end Filth
