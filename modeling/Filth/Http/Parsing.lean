import Filth.Base.Resumable
import Filth.Http.Constants

/-!
# Reading header blocks

`HTTP_parsing::operator>>`, `src/HTTP_parsing.cpp:23–67`, on the stream it reads from, and
the same function on the text that is left in the stream. When the line at hand is not
terminated, the parser rewinds by the length of the line; if the carriage return had been read
already, that is one character too few.
-/

namespace Filth

open Base

/-- `structured_hdrs_type`, `src/HTTP_typedefs.hpp:7`: one slot for each header and one for the
request line. A header is kept as the whole line it came in, name included. -/
structure Hdrs where
  reqln : Str
  hdr : Header → Str

namespace Hdrs

/-- All slots empty. -/
def empty : Hdrs := { reqln := [], hdr := fun _ ↦ [] }

/-- A request line without headers. -/
def ofReqln (reqln : String) : Hdrs := { empty with reqln := reqln.toList }

/-- Fill the slot that a line belongs to, if there is one, `src/HTTP_parsing.cpp:42–54`. -/
def store (h : Hdrs) (line : Str) : Hdrs :=
  if httpVersion <:+: line then { h with reqln := line }
  else match Header.extract line with
    | some (hd, _) => { h with hdr := Function.update h.hdr hd line }
    | none => h

/-- Print the slots that are not empty, the request line first and then backwards,
`src/HTTP_parsing.cpp:69–78`. -/
def print (h : Hdrs) : Str :=
  ((h.reqln :: Header.all.reverse.map h.hdr).filter (· ≠ [])).flatMap (· ++ crlf) ++ crlf

end Hdrs

/-- The loop of the parser, `src/HTTP_parsing.cpp:28–55`. Every round consumes a line, so as many
rounds as there are characters left, and one more, are enough. -/
def parseLoop (max : Limit) : Nat → IStream → Hdrs → Except Status (Bool × IStream × Hdrs)
  | 0, i, h => .ok (false, i, h)
  | n + 1, i, h =>
    let (line, i) := i.getline '\r'
    if !i.fail && line ≠ [] then
      if max.exceeded line.length then .error .badRequest
      else
        let (c, i) := i.peek
        if c ≠ some '\n' then .ok (false, i.clear.seekBack line.length, h)
        else parseLoop max n i.ignore.clear (h.store line)
    else
      let (c, i) := i.clear.peek
      if line = [] ∧ c = some '\n' then .ok (true, i.ignore, h)
      else .ok (false, i.clear.seekBack line.length, h)

/-- `operator>>`, `src/HTTP_parsing.cpp:23–67`: true when the header block is complete, false when
more has to be read. -/
def parse (max : Limit) (i : IStream) (h : Hdrs) : Except Status (Bool × IStream × Hdrs) :=
  parseLoop max (i.rest.length + 1) i h

/-- The parser on the text left in the stream. -/
def scan (h : Hdrs) (t : Str) : Outcome Hdrs Char :=
  match _ht : t.dropWhile (· ≠ '\r') with
  | [] => .more h t
  | _ :: '\n' :: rest =>
    if t.takeWhile (· ≠ '\r') = [] then .done h rest
    else scan (h.store (t.takeWhile (· ≠ '\r'))) rest
  | _ :: _ => .more h (t.drop 1)
termination_by t.length
decreasing_by
  have h₁ := (List.dropWhile_sublist (· ≠ '\r') (l := t)).length_le
  rw [_ht] at h₁
  simp only [List.length_cons] at h₁
  omega

/-- A text without carriage returns, one whose first line is terminated by both characters,
and one whose first line is not: every text is one of these. -/
theorem text_cases (t : Str) : '\r' ∉ t ∨
    (∃ l rest, '\r' ∉ l ∧ t = l ++ '\r' :: '\n' :: rest) ∨
    ∃ l after, '\r' ∉ l ∧ after.head? ≠ some '\n' ∧ t = l ++ '\r' :: after := by
  by_cases h : '\r' ∈ t
  · obtain ⟨l, after, rfl, hl⟩ := List.eq_append_cons_of_mem h
    cases after with
    | nil => exact .inr (.inr ⟨l, [], hl, by simp, rfl⟩)
    | cons c rest =>
      by_cases hc : c = '\n'
      · subst hc
        exact .inr (.inl ⟨l, rest, hl, rfl⟩)
      · exact .inr (.inr ⟨l, c :: rest, hl, by simpa using hc, rfl⟩)
  · exact .inl h

/-- Induction over the lines of a text. -/
theorem text_induction {motive : Str → Prop} (piece : ∀ l, '\r' ∉ l → motive l)
    (empty : ∀ rest, motive ('\r' :: '\n' :: rest))
    (line : ∀ l rest, '\r' ∉ l → l ≠ [] → motive rest → motive (l ++ '\r' :: '\n' :: rest))
    (broken : ∀ l after, '\r' ∉ l → after.head? ≠ some '\n' → motive (l ++ '\r' :: after))
    (t : Str) : motive t := by
  induction hn : t.length using Nat.strong_induction_on generalizing t with
  | _ n ih =>
    rcases text_cases t with h | ⟨l, rest, hl, rfl⟩ | ⟨l, after, hl, ha, rfl⟩
    · exact piece t h
    · by_cases hne : l = []
      · subst hne
        exact empty rest
      · exact line l rest hl hne (ih rest.length (by simp at hn; omega) rest rfl)
    · exact broken l after hl ha

private theorem split_at_cr {l : Str} (hl : '\r' ∉ l) (after : Str) :
    (l ++ '\r' :: after).takeWhile (fun c ↦ decide (c ≠ '\r')) = l ∧
      (l ++ '\r' :: after).dropWhile (fun c ↦ decide (c ≠ '\r')) = '\r' :: after := by
  have hpos : ∀ c ∈ l, decide (c ≠ '\r') = true := by
    intro c hc
    simp only [decide_eq_true_eq]
    rintro rfl
    exact hl hc
  rw [List.takeWhile_append_of_pos hpos, List.dropWhile_append_of_pos hpos]
  simp

/-- A piece of a line is kept. -/
theorem scan_piece (h : Hdrs) {t : Str} (ht : '\r' ∉ t) : scan h t = .more h t := by
  have hd : t.dropWhile (fun c ↦ decide (c ≠ '\r')) = [] := by
    rw [List.dropWhile_eq_nil_iff]
    intro c hc
    simp only [decide_eq_true_eq]
    rintro rfl
    exact ht hc
  rw [scan]
  split
  · rfl
  · next heq => rw [hd] at heq; cases heq
  · next heq => rw [hd] at heq; cases heq

/-- The empty line ends the block. -/
theorem scan_empty (h : Hdrs) (rest : Str) : scan h ('\r' :: '\n' :: rest) = .done h rest := by
  rw [scan]
  split
  · next heq => simp at heq
  · next heq => simp at heq; simp [heq]
  · next hne heq => simp at heq; exact absurd heq.2.symm (hne _)

/-- A line that is terminated is stored. -/
theorem scan_line (h : Hdrs) {l rest : Str} (hl : '\r' ∉ l) (hne : l ≠ []) :
    scan h (l ++ '\r' :: '\n' :: rest) = scan (h.store l) rest := by
  obtain ⟨h₁, h₂⟩ := split_at_cr hl ('\n' :: rest)
  rw [scan]
  split
  · next heq => rw [h₂] at heq; cases heq
  · next heq =>
    rw [h₂] at heq
    cases heq
    rw [h₁, if_neg hne]
  · next hno heq =>
    rw [h₂] at heq
    cases heq
    exact absurd rfl (hno rest)

/-- A line whose line feed is not there loses a character. -/
theorem scan_broken (h : Hdrs) {l after : Str} (hl : '\r' ∉ l) (ha : after.head? ≠ some '\n') :
    scan h (l ++ '\r' :: after) = .more h ((l ++ '\r' :: after).drop 1) := by
  obtain ⟨h₁, h₂⟩ := split_at_cr hl after
  rw [scan]
  split
  · next heq => rw [h₂] at heq; cases heq
  · next heq =>
    rw [h₂] at heq
    cases heq
    exact absurd rfl ha
  · rfl

/-- Among the lines up to the empty one, the piece at the end and a broken line included, there
is one that exceeds the limit. -/
inductive Overlong (max : Limit) : Str → Prop
  | here (t : Str) (h : max.exceeded (t.takeWhile (· ≠ '\r')).length = true) : Overlong max t
  | later (l rest : Str) (hl : '\r' ∉ l) (hne : l ≠ []) (h : Overlong max rest) :
      Overlong max (l ++ '\r' :: '\n' :: rest)

/-- The first carriage return divides a text in one way. -/
theorem cr_unique {l l' a a' : Str} (hl : '\r' ∉ l) (hl' : '\r' ∉ l')
    (h : l ++ '\r' :: a = l' ++ '\r' :: a') : l = l' ∧ a = a' := by
  have ht := congrArg (List.takeWhile fun c ↦ decide (c ≠ '\r')) h
  rw [(split_at_cr hl a).1, (split_at_cr hl' a').1] at ht
  subst ht
  exact ⟨rfl, by simpa using h⟩

/-- A piece of a line is overlong if it exceeds the limit. -/
theorem overlong_piece (max : Limit) {l : Str} (hl : '\r' ∉ l) :
    Overlong max l ↔ max.exceeded l.length = true := by
  have ht : l.takeWhile (fun c ↦ decide (c ≠ '\r')) = l := takeWhile_ne_eq_self hl
  constructor
  · intro h
    cases h with
    | here _ h => rwa [ht] at h
    | later l rest => simp at hl
  · exact fun h ↦ .here l (by rwa [ht])

/-- Up to the empty line, text is overlong where a line is. -/
theorem overlong_line (max : Limit) {l rest : Str} (hl : '\r' ∉ l) :
    Overlong max (l ++ '\r' :: '\n' :: rest) ↔
      l ≠ [] ∧ (max.exceeded l.length = true ∨ Overlong max rest) := by
  constructor
  · generalize ht : l ++ '\r' :: '\n' :: rest = t
    intro h
    cases h with
    | here _ h =>
      rw [← ht, (split_at_cr hl _).1] at h
      refine ⟨?_, .inl h⟩
      rintro rfl
      rw [List.length_nil, max.exceeded_zero] at h
      cases h
    | later l' rest' hl' hne h =>
      obtain ⟨rfl, hrest⟩ := cr_unique hl hl' ht
      cases hrest
      exact ⟨hne, .inr h⟩
  · rintro ⟨hne, h | h⟩
    · exact .here _ (by rwa [(split_at_cr hl _).1])
    · exact .later l rest hl hne h

/-- What follows a broken line does not count. -/
theorem overlong_broken (max : Limit) {l after : Str} (hl : '\r' ∉ l)
    (ha : after.head? ≠ some '\n') :
    Overlong max (l ++ '\r' :: after) ↔ max.exceeded l.length = true := by
  constructor
  · generalize ht : l ++ '\r' :: after = t
    intro h
    cases h with
    | here _ h => rwa [← ht, (split_at_cr hl _).1] at h
    | later l' rest' hl' hne h =>
      obtain ⟨-, rfl⟩ := cr_unique hl hl' ht
      exact absurd rfl ha
  · exact fun h ↦ .here _ (by rwa [(split_at_cr hl _).1])

/-- A round of the parser on a piece of a line, or on nothing. -/
theorem parseLoop_piece (max : Limit) {s : Str} {p : Nat} (n : Nat) (h : Hdrs)
    (ht : '\r' ∉ s.drop p) : parseLoop max (n + 1) (.sound s p) h =
      if max.exceeded (s.drop p).length then .error .badRequest else .ok (false, .sound s p, h) := by
  have hline := IStream.getline_sound_end ht
  by_cases hne : s.drop p = []
  · rw [hne] at hline
    simp [parseLoop, hline, hne, Limit.exceeded_zero, IStream.peek_sound_end hne]
  · have hsome : (s.drop p).isEmpty = false := by simpa using hne
    rw [hsome] at hline
    generalize s.drop p = t at hline hne ⊢
    simp [parseLoop, hline, hne]

/-- A round on a line that is terminated by both characters. -/
theorem parseLoop_line (max : Limit) {s l rest : Str} {p : Nat} (n : Nat) (h : Hdrs)
    (ht : s.drop p = l ++ '\r' :: '\n' :: rest) (hl : '\r' ∉ l) :
    parseLoop max (n + 1) (.sound s p) h =
      if l = [] then .ok (true, .sound s (p + 2), h)
      else if max.exceeded l.length then .error .badRequest
      else parseLoop max n (.sound s (p + l.length + 2)) (h.store l) := by
  have hlf : s.drop (p + l.length + 1) = '\n' :: rest := by
    rw [← List.drop_drop, ← List.drop_drop, ht]
    simp
  have hline := IStream.getline_sound ht hl
  by_cases hne : l = []
  · subst hne
    simp only [List.length_nil, Nat.add_zero] at hline hlf
    simp [parseLoop, hline, IStream.peek_sound hlf, IStream.ignore_sound hlf]
  · simp [parseLoop, hline, hne, IStream.peek_sound hlf, IStream.ignore_sound hlf]

/-- A round on a line whose line feed is missing. -/
private theorem parseLoop_broken (max : Limit) {s l after : Str} {p : Nat} (n : Nat) (h : Hdrs)
    (ht : s.drop p = l ++ '\r' :: after) (hl : '\r' ∉ l) (ha : after.head? ≠ some '\n') :
    parseLoop max (n + 1) (.sound s p) h =
      if max.exceeded l.length then .error .badRequest else .ok (false, .sound s (p + 1), h) := by
  have hafter : s.drop (p + l.length + 1) = after := by
    rw [← List.drop_drop, ← List.drop_drop, ht]
    simp
  have hline := IStream.getline_sound ht hl
  have hback : p + l.length + 1 - l.length = p + 1 := by omega
  -- whatever stands there, it is not a line feed, and looking at it moves nothing
  obtain ⟨c, i, hpeek, hc, hi⟩ : ∃ c i, (IStream.sound s (p + l.length + 1)).peek = (c, i) ∧
      c ≠ some '\n' ∧ i.clear = .sound s (p + l.length + 1) := by
    cases after with
    | nil => exact ⟨_, _, IStream.peek_sound_end hafter, nofun, rfl⟩
    | cons c rest => exact ⟨_, _, IStream.peek_sound hafter, by simpa using ha, rfl⟩
  by_cases hne : l = []
  · subst hne
    simp only [List.length_nil, Nat.add_zero] at hline hpeek hi
    simp [parseLoop, hline, hpeek, hc, hi, Limit.exceeded_zero]
  · simp [parseLoop, hline, hne, hpeek, hc, hi, hback]

/-- What the loop reports and leaves is what the scanner does, unless a line is overlong. -/
theorem parseLoop_eq_scan (max : Limit) {s t : Str} {p n : Nat} (hp : p ≤ s.length)
    (ht : s.drop p = t) (hn : t.length < n) (h : Hdrs) :
    (Overlong max t ∧ parseLoop max n (.sound s p) h = .error .badRequest) ∨
    (¬ Overlong max t ∧ ∃ p' ≤ s.length, s.drop p' = (scan h t).rest ∧
      parseLoop max n (.sound s p) h = .ok ((scan h t).isDone, .sound s p', (scan h t).state)) := by
  have hlen : t.length = s.length - p := by rw [← ht, List.length_drop]
  obtain ⟨n, rfl⟩ := Nat.exists_eq_succ_of_ne_zero (by omega : n ≠ 0)
  induction t using text_induction generalizing n p h with
  | piece l hl =>
    rw [parseLoop_piece max n h (ht ▸ hl), ht, scan_piece h hl, overlong_piece max hl]
    by_cases he : max.exceeded l.length = true
    · exact .inl ⟨he, if_pos he⟩
    · exact .inr ⟨he, p, hp, ht, if_neg he⟩
  | empty rest =>
    rw [parseLoop_line max n h (l := []) ht List.not_mem_nil, scan_empty]
    refine .inr ⟨?_, p + 2, ?_, ?_, if_pos rfl⟩
    · intro h
      exact ((overlong_line max (l := []) List.not_mem_nil).mp h).1 rfl
    · simp only [List.length_cons] at hlen
      omega
    · rw [← List.drop_drop, ht]
      rfl
  | line l rest hl hne ih =>
    have hrest : s.drop (p + l.length + 2) = rest := by
      rw [← List.drop_drop, ← List.drop_drop, ht]
      simp
    simp only [List.length_append, List.length_cons] at hlen hn
    rw [parseLoop_line max n h ht hl, scan_line h hl hne, overlong_line max hl, if_neg hne]
    by_cases he : max.exceeded l.length = true
    · exact .inl ⟨⟨hne, .inl he⟩, if_pos he⟩
    · obtain ⟨n, rfl⟩ := Nat.exists_eq_succ_of_ne_zero (by omega : n ≠ 0)
      simp only [he, Bool.false_eq_true, false_or, hne, ne_eq, not_false_eq_true, true_and, if_false]
      exact ih (by omega) hrest (h.store l) (by omega) n (by omega)
  | broken l after hl ha =>
    rw [parseLoop_broken max n h ht hl ha, scan_broken h hl ha, overlong_broken max hl ha]
    by_cases he : max.exceeded l.length = true
    · exact .inl ⟨he, if_pos he⟩
    · refine .inr ⟨he, p + 1, ?_, ?_, if_neg he⟩
      · simp only [List.length_append, List.length_cons] at hlen
        omega
      · rw [← List.drop_drop, ht]
        rfl

/-- The parser throws when a line is overlong. -/
theorem parse_of_overlong {max : Limit} {s : Str} {p : Nat} (hp : p ≤ s.length) (h : Hdrs)
    (ho : Overlong max (s.drop p)) : parse max (.sound s p) h = .error .badRequest := by
  rcases parseLoop_eq_scan max hp rfl (Nat.lt_succ_self _) h with ⟨-, he⟩ | ⟨hno, -⟩
  · exact he
  · exact absurd ho hno

/-- Otherwise it reports and leaves what the scanner does. -/
theorem parse_eq_scan {max : Limit} {s : Str} {p : Nat} (hp : p ≤ s.length) (h : Hdrs)
    (ho : ¬ Overlong max (s.drop p)) :
    ∃ p' ≤ s.length, s.drop p' = (scan h (s.drop p)).rest ∧ parse max (.sound s p) h =
      .ok ((scan h (s.drop p)).isDone, .sound s p', (scan h (s.drop p)).state) := by
  rcases parseLoop_eq_scan max hp rfl (Nat.lt_succ_self _) h with ⟨hyes, -⟩ | ⟨-, he⟩
  · exact absurd hyes ho
  · exact he

/-- What the parser accepts, in terms of the scanner. -/
theorem scan_of_accepted {max : Limit} {s : Str} {p : Nat} {j : IStream} {g h : Hdrs}
    (hparse : parse max (.sound s p) g = .ok (true, j, h)) :
    ¬ Overlong max (s.drop p) ∧
      ∃ p', j = .sound s p' ∧ scan g (s.drop p) = .done h (s.drop p') := by
  by_cases hp : p ≤ s.length
  · have hshort : ¬ Overlong max (s.drop p) := by
      intro ho
      rw [parse_of_overlong hp g ho] at hparse
      cases hparse
    obtain ⟨p', -, hrest, heq⟩ := parse_eq_scan hp g hshort
    rw [hparse] at heq
    refine ⟨hshort, p', ?_⟩
    cases hscan : scan g (s.drop p) with
    | done h' rest =>
      rw [hscan] at heq hrest
      cases heq
      exact ⟨rfl, by rw [hrest]; rfl⟩
    | more h' rest =>
      rw [hscan] at heq
      cases heq
  · -- behind the end of the text there is no empty line
    have hnil : s.drop p = [] := List.drop_eq_nil_of_le (by omega)
    have hloop : parse max (.sound s p) g = .ok (false, .sound s p, g) := by
      rw [parse, parseLoop_piece max _ g (by rw [hnil]; exact List.not_mem_nil), hnil,
        List.length_nil, max.exceeded_zero]
      rfl
    rw [hloop] at hparse
    cases hparse

end Filth
