import Filth.Http.Slots

/-!
# How header names are recognised

Reading a header name, `src/HTTP_constants.cpp:109–139`, writes underscores for hyphens and looks
the outcome up in `data/HTTP_headers.def`. The lookup minds the case of letters, so a name in
another case is not known; and a name that is written with underscores is known, although it is
not what `operator<<` prints.
-/

namespace Filth

open Base

/-- What stands before the first colon, without white space around it. -/
def nameOf (line : Str) : Str := trim (line.takeWhile (· ≠ ':'))

/-- A line that names a header as printing does, up to the case of letters. -/
def Named (line : Str) (j : Header) : Prop :=
  ':' ∈ line ∧ lower (nameOf line) = lower j.hyphenated

instance (line : Str) (j : Header) : Decidable (Named line j) :=
  inferInstanceAs (Decidable (_ ∧ _))

/-- A line that the parser passes over: of every block that the line is in, it makes what it makes
of the block without the line. -/
def Ignored (line : Str) : Prop :=
  ∀ (max : Limit) before after rest g,
    (∀ l ∈ before ++ line :: after, l ≠ [] ∧ '\r' ∉ l ∧ max.exceeded l.length = false) →
    ∃ h, parse max (.new (block (before ++ line :: after) ++ rest)) g =
        .ok (true, .sound (block (before ++ line :: after) ++ rest)
          (block (before ++ line :: after)).length, h) ∧
      parse max (.new (block (before ++ after) ++ rest)) g =
        .ok (true, .sound (block (before ++ after) ++ rest) (block (before ++ after)).length, h)

/-- The header that is read from a line is the one that the line names, and a line that names none
is passed over. -/
structure ReadByName (line : Str) : Prop where
  yields (j) : (∃ v, Header.extract line = some (j, v)) ↔ Named line j
  ignored (h : ∀ j, ¬ Named line j) : Header.extract line = none ∧ Ignored line

/-! ### Underscores and hyphens -/

section Trim

variable {f : Char → Char} (hf : ∀ c, isspace (f c) = isspace c)
include hf

theorem dropWhile_isspace_map (s : Str) :
    (s.map f).dropWhile isspace = (s.dropWhile isspace).map f := by
  rw [List.dropWhile_map]
  congr 2
  funext c
  exact hf c

/-- What changes no white space can be done before trimming or after it. -/
theorem trim_map (s : Str) : trim (s.map f) = (trim s).map f := by
  rw [trim, dropWhile_isspace_map hf, ← List.map_reverse, dropWhile_isspace_map hf,
    ← List.map_reverse, trim]

end Trim

theorem isspace_underscored (c : Char) :
    isspace (if c = '-' then '_' else c) = isspace c := by
  by_cases hc : c = '-'
  · rw [if_pos hc, hc]
    rfl
  · rw [if_neg hc]

/-- Only an underscore becomes an underscore in lower case. -/
private theorem eq_underscore_of_toLower {c : Char} (h : c.toLower = '_') : c = '_' := by
  unfold Char.toLower at h
  split at h
  · next hupper =>
    have hle : 65 ≤ c.val.toNat := hupper.1
    have hge : c.val.toNat ≤ 90 := hupper.2
    have hval : (c.val + 32).toNat = 95 := congrArg (fun d ↦ d.val.toNat) h
    have hsum := UInt32.toNat_add c.val 32
    have h32 : (32 : UInt32).toNat = 32 := rfl
    omega
  · exact h

/-- What underscores stand for is restored if there were none before. -/
private theorem hyphenated_underscored {s : Str} (hs : '_' ∉ s) :
    (s.map fun c ↦ if c = '-' then '_' else c).map (fun c ↦ if c = '_' then '-' else c) = s := by
  rw [List.map_map]
  refine (List.map_congr_left fun c hc ↦ ?_).trans (List.map_id s)
  have hne : c ≠ '_' := by
    rintro rfl
    exact hs hc
  by_cases hhyphen : c = '-'
  · simp [hhyphen]
  · simp [hhyphen, hne]

/-- A name without underscores stands in the table if it is the name that is printed. -/
theorem Header.underscored_eq_str_iff {n : Str} (hn : '_' ∉ n) (j : Header) :
    (n.map fun c ↦ if c = '-' then '_' else c) = j.str ↔ n = j.hyphenated := by
  constructor
  · intro h
    rw [hyphenated, ← h, hyphenated_underscored hn]
  · rintro rfl
    exact j.underscored_hyphenated

/-- Where a header is read from a line. -/
theorem Header.extract_iff {line : Str} {j : Header} : (∃ v, extract line = some (j, v)) ↔
    ':' ∈ line ∧ ((nameOf line).map fun c ↦ if c = '-' then '_' else c) = j.str := by
  unfold extract
  dsimp only
  rw [nameOf, ← trim_map isspace_underscored]
  by_cases hmem : ':' ∈ line
  · rw [if_pos (length_takeWhile_ne_lt_iff.mpr hmem)]
    constructor
    · rintro ⟨v, h⟩
      obtain ⟨hd, hfind, heq⟩ := Option.map_eq_some_iff.mp h
      cases heq
      exact ⟨hmem, (str_of_find hfind).symm⟩
    · rintro ⟨-, h⟩
      rw [h, find_str]
      exact ⟨_, rfl⟩
  · rw [if_neg fun h ↦ hmem (length_takeWhile_ne_lt_iff.mp h)]
    simp [hmem]

/-! ### Which names are read as they should be -/

section Spelled

variable {line : Str}

/-- A name that is spelled as it is printed, if it is the name of a header at all, and a line that
has the version in it only if it names a header. -/
structure Spelled (line : Str) : Prop where
  inCase (hcolon : ':' ∈ line) (j : Header) (h : lower (nameOf line) = lower j.hyphenated) :
    nameOf line = j.hyphenated
  hyphens (hcolon : ':' ∈ line) (j : Header)
    (h : ((nameOf line).map fun c ↦ if c = '-' then '_' else c) = j.str) : '_' ∉ nameOf line
  version (h : httpVersion <:+: line) : ∃ j, Named line j

/-- A line that changes nothing when it is stored is passed over. -/
private theorem ignored_of_store (h : ∀ g : Hdrs, g.store line = g) : Ignored line := by
  intro max before after rest g hlines
  refine ⟨(before ++ after).foldl Hdrs.store g, ?_, ?_⟩
  · rw [parse_block (fun l hl ↦ ⟨(hlines l hl).1, (hlines l hl).2.1⟩)
      fun l hl ↦ (hlines l hl).2.2, List.foldl_append, List.foldl_cons, h, List.foldl_append]
  · have hmem (l : Str) (hl : l ∈ before ++ after) : l ∈ before ++ line :: after := by
      rcases List.mem_append.mp hl with hl | hl
      · exact List.mem_append_left _ hl
      · exact List.mem_append_right _ (List.mem_cons_of_mem line hl)
    exact parse_block (fun l hl ↦ ⟨(hlines l (hmem l hl)).1, (hlines l (hmem l hl)).2.1⟩)
      (fun l hl ↦ (hlines l (hmem l hl)).2.2) rest g

/-- A line with the version in it is not passed over: it becomes the request line. -/
private theorem not_ignored_of_version (hline : '\r' ∉ line) (hversion : httpVersion <:+: line) :
    ¬ Ignored line := by
  intro h
  have hne : line ≠ [] := by
    rintro rfl
    exact absurd hversion (by decide)
  obtain ⟨hdrs, hwith, hwithout⟩ := h none [] [] [] .empty (by simpa using ⟨hne, hline, rfl⟩)
  rw [parse_block (by simpa using ⟨hne, hline⟩) (by simp [Limit.exceeded])] at hwith
  rw [parse_block (by simp) (by simp)] at hwithout
  have hreqln : (Hdrs.empty.store line).reqln = Hdrs.empty.reqln := by
    injection hwith with hwith
    injection hwithout with hwithout
    exact congrArg Hdrs.reqln ((congrArg (·.2.2) hwith).trans (congrArg (·.2.2) hwithout).symm)
  rw [Hdrs.reqln_store, if_pos hversion] at hreqln
  exact hne hreqln

/-- A spelled name is read just when it stands in the table. -/
theorem Spelled.named_iff (h : Spelled line) (j : Header) :
    (∃ v, Header.extract line = some (j, v)) ↔ Named line j := by
  rw [Header.extract_iff]
  constructor
  · rintro ⟨hcolon, hname⟩
    rw [Header.underscored_eq_str_iff (h.hyphens hcolon j hname)] at hname
    exact ⟨hcolon, congrArg lower hname⟩
  · rintro ⟨hcolon, hname⟩
    rw [h.inCase hcolon j hname]
    exact ⟨hcolon, j.underscored_hyphenated⟩

/-- The header that a line names is the one that is read from it, and a line without a name is
passed over, just when the name is spelled as it is printed. -/
theorem readByName_iff_spelled (hline : '\r' ∉ line) : ReadByName line ↔ Spelled line := by
  constructor
  · intro h
    have hhyphens (hcolon : ':' ∈ line) (j : Header)
        (hname : ((nameOf line).map fun c ↦ if c = '-' then '_' else c) = j.str) :
        '_' ∉ nameOf line := by
      intro hmem
      obtain ⟨-, hlower⟩ := (h.yields j).mp (Header.extract_iff.mpr ⟨hcolon, hname⟩)
      have hprinted : '_' ∈ lower j.hyphenated := hlower ▸ List.mem_map_of_mem hmem
      obtain ⟨c, hc, heq⟩ := List.mem_map.mp hprinted
      rw [eq_underscore_of_toLower heq] at hc
      exact j.not_mem_hyphenated (by decide) (by decide) hc
    refine ⟨fun hcolon j hname ↦ ?_, hhyphens, fun hversion ↦ ?_⟩
    · obtain ⟨-, hstr⟩ := Header.extract_iff.mp ((h.yields j).mpr ⟨hcolon, hname⟩)
      exact (Header.underscored_eq_str_iff (hhyphens hcolon j hstr) j).mp hstr
    · by_contra hno
      exact not_ignored_of_version hline hversion (h.ignored (not_exists.mp hno)).2
  · intro h
    refine ⟨h.named_iff, fun hno ↦ ?_⟩
    have hnone : Header.extract line = none := by
      refine Option.eq_none_iff_forall_ne_some.mpr fun p hp ↦ ?_
      exact hno p.1 ((h.named_iff p.1).mp ⟨p.2, hp⟩)
    refine ⟨hnone, ignored_of_store fun g ↦ ?_⟩
    rw [Hdrs.store, if_neg fun hversion ↦ (h.version hversion).elim hno, hnone]

/-- A name in lower case. -/
theorem readByName_iff_spelled_lower :
    ReadByName "content-length: 5".toList ↔ Spelled "content-length: 5".toList :=
  readByName_iff_spelled (by decide)

/-- It is not recognised, although it is the name of a header. -/
theorem not_readByName_lower : Named "content-length: 5".toList .contentLength ∧
    Header.extract "content-length: 5".toList = none ∧
    ¬ ReadByName "content-length: 5".toList := by
  have hnamed : Named "content-length: 5".toList .contentLength := by decide
  have hnone : Header.extract "content-length: 5".toList = none := by decide
  refine ⟨hnamed, hnone, fun h ↦ ?_⟩
  obtain ⟨v, hv⟩ := (h.yields _).mpr hnamed
  rw [hnone] at hv
  cases hv

end Spelled
end Filth
