import Filth.Base.Words
import Filth.Server.Origin
import Filth.Server.RequestLine

/-!
# Links in the page of a directory

`dirtoHTML`, `src/HTTP_Origin_Server.cpp:219–252`, writes a link for every name that it finds. Who
follows the link sends what stands between the quotes back, as the URI of a request line. Nothing is
escaped on the way out and nothing is decoded on the way in, `src/HTTP_Server_Work.cpp:159–201`; so
a name comes back as it was, unless a character of it has a meaning to the reader of the page or to
`parsereqln`, or `parseuri` refuses it.
-/

namespace Filth

open Base

/-- A name in a directory. -/
structure FileName where
  name : Str
  ne : name ≠ []
  noSlash : '/' ∉ name
  noNul : '\x00' ∉ name

/-- The page that `dirtoHTML` compresses. -/
def dirText (path : Str) (names : List FileName) : Str :=
  cstr (dirPage path (names.map FileName.name))

/-- The page up to the opening quote of a link, the names before which are given. -/
def dirFront (path : Str) (before : List FileName) : Str :=
  "<html><head></head><body>".toList ++
    before.flatMap (fun e ↦ "<p><a href=\"/".toList ++ path ++ "/".toList ++ e.name ++
      "\">".toList ++ e.name ++ "</a></p>".toList) ++ "<p><a href=\"".toList

/-- The value of an attribute, from behind the opening quote. -/
def attributeValue (s : Str) : Option Str :=
  if '"' ∈ s then some (s.takeWhile (· ≠ '"')) else none

/-- The target of a link, as it is read from the page. -/
def linkTarget (path : Str) (before : List FileName) (e : FileName) (after : List FileName) :
    Option Str :=
  attributeValue ((dirText path (before ++ e :: after)).drop (dirFront path before).length)

/-- The request line of who follows a link. -/
def requestFor (target : Str) : Str := "GET ".toList ++ target ++ " HTTP/1.1".toList

/-- The target of the link is the path and the name, with nothing of them outside of the quotes, and
a request for it is accepted and leads back to them. -/
structure LinkResolves (max : Limit) (path : Str) (before : List FileName) (e : FileName)
    (after : List FileName) : Prop where
  quoted : linkTarget path before e after = some ('/' :: (path ++ '/' :: e.name))
  resolves : ∀ target, linkTarget path before e after = some target → ∀ (m : Method) (old : Str),
    parsereqln max (requestFor target) m old [] = (.ok (), .get, path ++ '/' :: e.name, [])

variable {path : Str} {before after : List FileName} {e : FileName}

/-- A text made of one piece for each name, divided before and behind what stands between the quotes
in one of them. -/
theorem pieces_split {quote quote' slash close : Str} (hquote : quote = quote' ++ ['/'])
    (hslash : slash = ['/']) (hclose : close = ['"', '>']) (head path tail foot : Str)
    (before : List FileName) (e : FileName) (after : List FileName) :
    ∃ rest, head ++ ((before ++ e :: after).map FileName.name).flatMap
        (fun name ↦ quote ++ path ++ slash ++ name ++ close ++ name ++ tail) ++ foot =
      head ++ before.flatMap
        (fun e ↦ quote ++ path ++ slash ++ e.name ++ close ++ e.name ++ tail) ++ quote' ++
          ('/' :: (path ++ '/' :: e.name) ++ '"' :: rest) := by
  subst hquote hslash hclose
  refine ⟨'>' :: (e.name ++ (tail ++ ((after.map FileName.name).flatMap (fun name ↦ quote' ++
    ['/'] ++ path ++ ['/'] ++ name ++ ['"', '>'] ++ name ++ tail) ++ foot))), ?_⟩
  simp [List.flatMap_map]

/-- The page, divided before and behind the target of a link. -/
private theorem dirPage_split (path : Str) (before : List FileName) (e : FileName)
    (after : List FileName) :
    ∃ rest, dirPage path ((before ++ e :: after).map FileName.name) =
      dirFront path before ++ ('/' :: (path ++ '/' :: e.name) ++ '"' :: rest) :=
  pieces_split (by decide) (by decide) (by decide) _ path _ _ before e after

/-! ### Reading the page -/

private theorem quote_not_mem_attributeValue {s t : Str} (h : attributeValue s = some t) :
    '"' ∉ t := by
  unfold attributeValue at h
  split at h
  · cases h
    intro hmem
    simpa using List.mem_takeWhile_imp hmem
  · cases h

private theorem attributeValue_subset {s t : Str} (h : attributeValue s = some t) : t ⊆ s := by
  unfold attributeValue at h
  split at h
  · cases h
    exact (List.takeWhile_prefix _).subset
  · cases h

/-- A target never has a quote or a NUL in it: the one ends it, the other ends the page. -/
private theorem not_mem_linkTarget {target : Str}
    (h : linkTarget path before e after = some target) :
    '"' ∉ target ∧ '\x00' ∉ target := by
  refine ⟨quote_not_mem_attributeValue h, fun hmem ↦ ?_⟩
  exact nul_not_mem_cstr _ (List.mem_of_mem_drop (attributeValue_subset h hmem))

private theorem nul_not_mem_dirFront (hpath : '\x00' ∉ path) (before : List FileName) :
    '\x00' ∉ dirFront path before := by
  intro hmem
  rcases List.mem_append.mp hmem with hmem | hmem
  · rcases List.mem_append.mp hmem with hmem | hmem
    · exact absurd hmem (by decide)
    · obtain ⟨e, -, hmem⟩ := List.mem_flatMap.mp hmem
      simp only [List.mem_append, hpath, e.noNul, or_false] at hmem
      rcases hmem with ((hmem | hmem) | hmem) | hmem <;> exact absurd hmem (by decide)
  · exact absurd hmem (by decide)

/-- What is read is what has been written, if it has no quote in it. -/
private theorem linkTarget_eq (hpath : '\x00' ∉ path) (hquote : '"' ∉ path)
    (hquote' : '"' ∉ e.name) :
    linkTarget path before e after = some ('/' :: (path ++ '/' :: e.name)) := by
  obtain ⟨rest, hpage⟩ := dirPage_split path before e after
  have hnul : '\x00' ∉ dirFront path before ++ '/' :: (path ++ '/' :: e.name) ++ ['"'] := by
    simp [nul_not_mem_dirFront hpath before, hpath, e.noNul]
  have htext : dirText path (before ++ e :: after) =
      dirFront path before ++ ('/' :: (path ++ '/' :: e.name) ++ '"' :: cstr rest) := by
    have hassoc (s : Str) : dirFront path before ++ ('/' :: (path ++ '/' :: e.name) ++ '"' :: s) =
        dirFront path before ++ '/' :: (path ++ '/' :: e.name) ++ ['"'] ++ s := by simp
    rw [dirText, hpage, hassoc, hassoc, cstr_append hnul]
  have hquotes : '"' ∉ '/' :: (path ++ '/' :: e.name) := by simp [hquote, hquote']
  rw [linkTarget, htext, List.drop_left, attributeValue, if_pos (by simp),
    takeWhile_ne_append hquotes]

/-! ### Reading the request -/

section Request

variable {target : Str}

private theorem word_requestFor (target : Str) :
    word (requestFor target) = ("GET".toList, ' ' :: (target ++ " HTTP/1.1".toList)) := by
  have hget : "GET ".toList = "GET".toList ++ [' '] := by decide
  have hassoc : requestFor target = "GET".toList ++ ' ' :: (target ++ " HTTP/1.1".toList) := by
    rw [requestFor, hget, List.append_assoc, List.append_assoc]
    rfl
  have hword : ∀ c ∈ "GET".toList, isspace c = false := by simp [isspace]
  rw [hassoc, word_append (by decide) hword]

/-- A target without white space is the URI of the request. -/
theorem words_requestFor (hne : target ≠ []) (hspace : ∀ c ∈ target, isspace c = false) :
    uriOf (requestFor target) = target ∧ versionOf (requestFor target) = httpVersion := by
  have hversion : " HTTP/1.1".toList = ' ' :: httpVersion := by decide
  have huri : word (word (requestFor target)).2 = (target, ' ' :: httpVersion) := by
    rw [word_requestFor, word_space, hversion, word_append hne hspace]
  constructor
  · rw [uriOf, huri]
  · have hall : (httpVersion.all fun c ↦ !isspace c) = true := by decide
    have hword : ∀ c ∈ httpVersion, isspace c = false :=
      fun c hc ↦ by simpa using List.all_eq_true.mp hall c hc
    rw [versionOf, huri, word_space, word_self hword]

/-- A URI has no white space in it. -/
private theorem isspace_uriOf (reqln : Str) : ∀ c ∈ uriOf reqln, isspace c = false := by
  intro c hc
  simpa using List.mem_takeWhile_imp hc

private theorem exceeded_of_parseuri {max : Limit} {uri path query path' query' : Str}
    (h : parseuri max uri path query = (.ok (), path', query')) :
    max.exceeded uri.length = false := by
  unfold parseuri at h
  split at h
  · cases h
  · next hlen => exact Bool.eq_false_of_not_eq_true hlen

private theorem not_dots_of_parseuri {max : Limit} {uri path query path' query' : Str}
    (h : parseuri max uri path query = (.ok (), path', query')) : ¬ ['.', '.'] <:+: uri := by
  rcases parseuri_cases h with ⟨rfl, -⟩ | ⟨rfl, -⟩ | ⟨rest, -, -, hdots, -⟩
  · decide
  · decide
  · exact hdots

end Request

/-- What comes back as it was: no character of it ends the attribute, the page, the URI or the path,
and no two dots in a row are in it. -/
def Linkable (s : Str) : Prop :=
  (∀ c ∈ s, c ≠ '"' ∧ c ≠ '\x00' ∧ isspace c = false ∧ c ≠ '?') ∧ ¬ ['.', '.'] <:+: s

/-- What holds of the characters of a link. -/
private theorem forall_mem_link {p : Char → Prop} (hslash : p '/') (path name : Str) :
    (∀ c ∈ '/' :: (path ++ '/' :: name), p c) ↔ (∀ c ∈ path, p c) ∧ ∀ c ∈ name, p c := by
  simp [hslash, or_imp, forall_and]

private theorem length_link (path name : Str) :
    ('/' :: (path ++ '/' :: name)).length = path.length + name.length + 2 := by
  simp only [List.length_append, List.length_cons]
  omega

private theorem not_dotdot_link_iff (path name : Str) :
    ¬ ['.', '.'] <:+: '/' :: (path ++ '/' :: name) ↔
      ¬ ['.', '.'] <:+: path ∧ ¬ ['.', '.'] <:+: name := by
  have hslash : '/' ∉ ['.', '.'] := by decide
  rw [← not_or, ← infix_append_cons_iff hslash, ← List.nil_append ('/' :: (path ++ '/' :: name)),
    infix_append_cons_iff hslash]
  simp

/-- What a link that resolves is made of. -/
theorem LinkResolves.linkable {max : Limit} (h : LinkResolves max path before e after) :
    Linkable path ∧ Linkable e.name ∧ max.exceeded (path.length + e.name.length + 2) = false := by
  obtain ⟨hquote, hnul⟩ := not_mem_linkTarget h.quoted
  have haccepted := parseuri_of_parsereqln (h.resolves _ h.quoted .get [])
  obtain ⟨rest, huri, hpath⟩ : ∃ rest, uriOf (requestFor ('/' :: (path ++ '/' :: e.name))) =
      '/' :: rest ∧ path ++ '/' :: e.name = rest.takeWhile (· ≠ '?') := by
    rcases parseuri_cases haccepted with ⟨-, hp⟩ | ⟨-, hp⟩ | ⟨rest, huri, -, -, hp⟩
    · have hslash : '/' ∈ path ++ '/' :: e.name := by simp
      rw [hp] at hslash
      exact absurd hslash (by decide)
    · have hlen := congrArg List.length hp
      have hpos := List.length_pos_iff.mpr e.ne
      simp only [List.length_append, List.length_cons, List.length_nil] at hlen
      omega
    · exact ⟨rest, huri, hp⟩
  have hchars : ∀ c ∈ path ++ '/' :: e.name, isspace c = false ∧ c ≠ '?' := by
    intro c hc
    rw [hpath] at hc
    have hmem := List.mem_cons_of_mem '/' ((List.takeWhile_prefix _).subset hc)
    exact ⟨isspace_uriOf _ c (huri ▸ hmem), by simpa using List.mem_takeWhile_imp hc⟩
  have hspace : ∀ c ∈ '/' :: (path ++ '/' :: e.name), isspace c = false := by
    intro c hc
    rcases List.mem_cons.mp hc with rfl | hc
    · decide
    · exact (hchars c hc).1
  rw [(words_requestFor (List.cons_ne_nil _ _) hspace).1] at haccepted
  have hlen := exceeded_of_parseuri haccepted
  have hdots := (not_dotdot_link_iff path e.name).mp (not_dots_of_parseuri haccepted)
  simp only [List.mem_cons, List.mem_append, not_or] at hquote hnul
  refine ⟨⟨fun c hc ↦ ⟨?_, ?_, hchars c (by simp [hc])⟩, hdots.1⟩,
    ⟨fun c hc ↦ ⟨?_, ?_, hchars c (by simp [hc])⟩, hdots.2⟩, ?_⟩
  · rintro rfl
    exact hquote.2.1 hc
  · rintro rfl
    exact hnul.2.1 hc
  · rintro rfl
    exact hquote.2.2.2 hc
  · rintro rfl
    exact hnul.2.2.2 hc
  · rw [← length_link, hlen]

/-- A link that is made of such names resolves. -/
private theorem linkResolves_of_linkable {max : Limit} (hpath : Linkable path)
    (hname : Linkable e.name)
    (hlen : max.exceeded (path.length + e.name.length + 2) = false) :
    LinkResolves max path before e after := by
  have htarget : linkTarget path before e after = some ('/' :: (path ++ '/' :: e.name)) :=
    linkTarget_eq (fun h ↦ (hpath.1 _ h).2.1 rfl) (fun h ↦ (hpath.1 _ h).1 rfl)
      (fun h ↦ (hname.1 _ h).1 rfl)
  refine ⟨htarget, fun target h m old ↦ ?_⟩
  cases htarget.symm.trans h
  have hspace : ∀ c ∈ '/' :: (path ++ '/' :: e.name), isspace c = false :=
    (forall_mem_link (by decide) path e.name).mpr
      ⟨fun c hc ↦ (hpath.1 c hc).2.2.1, fun c hc ↦ (hname.1 c hc).2.2.1⟩
  have hquery : '?' ∉ '/' :: (path ++ '/' :: e.name) := by
    have h₁ : '?' ∉ path := fun h ↦ (hpath.1 _ h).2.2.2 rfl
    have h₂ : '?' ∉ e.name := fun h ↦ (hname.1 _ h).2.2.2 rfl
    simp [h₁, h₂]
  have hlen' : max.exceeded ('/' :: (path ++ '/' :: e.name)).length = false := by
    rw [length_link, hlen]
  have hdots := (not_dotdot_link_iff path e.name).mpr ⟨hpath.2, hname.2⟩
  have haccepted (old : Str) : parseuri max ('/' :: (path ++ '/' :: e.name)) old [] =
      (.ok (), path ++ '/' :: e.name, []) := by
    unfold parseuri
    rw [if_neg (by rw [hlen']; decide), if_neg (by simp), if_neg (not_or.mpr ⟨by simp, hdots⟩),
      if_neg (by simp), splitQuery_eq_none hquery]
    rfl
  obtain ⟨huri, hversion⟩ := words_requestFor (List.cons_ne_nil _ _) hspace
  have hget : Method.find "GET".toList = some .get := by decide
  simp only [parsereqln, word_requestFor, hget, huri, haccepted, hversion, ↓reduceIte]

/-- For every path of a directory, all names in it and each of them: the link resolves if and only
if path and name are linkable and the link is not longer than a URI may be. -/
theorem linkResolves_iff (max : Limit) (path : Str) (before : List FileName) (e : FileName)
    (after : List FileName) : LinkResolves max path before e after ↔
      Linkable path ∧ Linkable e.name ∧ max.exceeded (path.length + e.name.length + 2) = false :=
  ⟨fun h ↦ h.linkable, fun ⟨hpath, hname, hlen⟩ ↦ linkResolves_of_linkable hpath hname hlen⟩

/-- A name with two dots in a row is refused. -/
theorem not_linkResolves_dots : ¬ ∀ (max : Limit) (path : Str) (before : List FileName)
    (e : FileName) (after : List FileName), e.name ≠ ['.'] → e.name ≠ ['.', '.'] →
      LinkResolves max path before e after := by
  intro h
  let e : FileName := ⟨"a..b".toList, by decide, by decide, by decide⟩
  exact (h none "pages".toList [] e [] (by decide) (by decide)).linkable.2.1.2 (by decide)

end Filth
