import Filth.Http.Parsing

/-!
# Header blocks that arrive in chunks

The parser is called after each chunk that arrives (`src/HTTP_Server_Work.cpp:37–50`). It can
go on after a chunk that ends within a line, but not after one that ends on a carriage return,
because of the character it loses there.
-/

namespace Filth

open Base

/-- Call the parser after each chunk until it returns true: its verdict, the headers, and what
is unread, chunks that were not needed included. -/
def parseChunks (max : Limit) : IStream → Hdrs → List Str → Except Status (Bool × Hdrs × Str)
  | i, h, [] => .ok (false, h, i.rest)
  | i, h, c :: cs => do
    let (complete, i, h) ← parse max (i.insert c) h
    if complete then .ok (true, h, i.rest ++ cs.flatten) else parseChunks max i h cs

/-- No line is longer than the limit. -/
def NoLongLine (max : Limit) (t : Str) : Prop :=
  ∀ l, l <:+: t → '\r' ∉ l → max.exceeded l.length = false

/-- Text that may end a chunk: up to the empty line, if that is in it, every carriage return is
followed by a line feed. -/
inductive Whole : Str → Prop
  | piece (l : Str) (hl : '\r' ∉ l) : Whole l
  | empty (rest : Str) : Whole ('\r' :: '\n' :: rest)
  | line (l rest : Str) (hl : '\r' ∉ l) (hne : l ≠ []) (h : Whole rest) :
      Whole (l ++ '\r' :: '\n' :: rest)

/-- The scanner's verdict that the block is complete does not depend on what follows. -/
theorem scan_stable : Stable scan := by
  intro h t
  induction t using text_induction generalizing h with
  | piece l hl =>
    intro s' r hs
    rw [scan_piece h hl] at hs
    cases hs
  | empty rest =>
    intro s' r hs d
    rw [scan_empty] at hs
    cases hs
    exact scan_empty h (rest ++ d)
  | line l rest hl hne ih =>
    intro s' r hs d
    rw [scan_line h hl hne] at hs
    rw [List.append_assoc, List.cons_append, List.cons_append, scan_line h hl hne]
    exact ih (h.store l) s' r hs d
  | broken l after hl ha =>
    intro s' r hs
    rw [scan_broken h hl ha] at hs
    cases hs

/-- After whole text the scanner can go on. -/
private theorem resumes_of_whole {t : Str} (ht : Whole t) (h : Hdrs) : Resumes scan h t := by
  induction ht generalizing h with
  | piece l hl =>
    intro s' r hs d
    rw [scan_piece h hl] at hs
    cases hs
    rfl
  | empty rest =>
    intro s' r hs
    rw [scan_empty] at hs
    cases hs
  | line l rest hl hne _ ih =>
    intro s' r hs d
    rw [scan_line h hl hne] at hs
    rw [List.append_assoc, List.cons_append, List.cons_append, scan_line h hl hne]
    exact ih (h.store l) s' r hs d

/-- Text that is not whole stops the scanner, whatever else than a line feed follows. -/
private theorem scan_of_not_whole {t : Str} (ht : ¬ Whole t) (h : Hdrs) : ∃ h' r, ∀ d,
    d.head? ≠ some '\n' → scan h (t ++ d) = .more h' (r ++ d) := by
  induction t using text_induction generalizing h with
  | piece l hl => exact absurd (.piece l hl) ht
  | empty rest => exact absurd (.empty rest) ht
  | line l rest hl hne ih =>
    obtain ⟨h', r, hs⟩ := ih (fun hw ↦ ht (.line l rest hl hne hw)) (h.store l)
    refine ⟨h', r, ?_⟩
    intro d hd
    rw [List.append_assoc, List.cons_append, List.cons_append, scan_line h hl hne]
    exact hs d hd
  | broken l after hl ha =>
    refine ⟨h, (l ++ '\r' :: after).drop 1, ?_⟩
    intro d hd
    have had : (after ++ d).head? ≠ some '\n' := by
      cases after with
      | nil => exact hd
      | cons c rest => exact ha
    rw [List.append_assoc, List.cons_append, scan_broken h hl had]
    cases l <;> simp

/-- What the scanner leaves is the end of what it was given. -/
theorem scan_rest_suffix (h : Hdrs) (t : Str) : (scan h t).rest <:+ t := by
  induction t using text_induction generalizing h with
  | piece l hl =>
    rw [scan_piece h hl]
    exact List.suffix_refl l
  | empty rest =>
    rw [scan_empty]
    exact (List.suffix_cons _ _).trans (List.suffix_cons _ _)
  | line l rest hl hne ih =>
    rw [scan_line h hl hne]
    exact (ih (h.store l)).trans
      (((List.suffix_cons _ _).trans (List.suffix_cons _ _)).trans (List.suffix_append _ _))
  | broken l after hl ha =>
    rw [scan_broken h hl ha]
    exact List.drop_suffix 1 _

/-- The scanner leaves less than it was given if there is a carriage return. -/
private theorem scan_rest_lt {t : Str} (ht : '\r' ∈ t) (h : Hdrs) :
    (scan h t).rest.length < t.length := by
  induction t using text_induction generalizing h with
  | piece l hl => exact absurd ht hl
  | empty rest =>
    rw [scan_empty]
    simp only [Outcome.rest, List.length_cons]
    omega
  | line l rest hl hne ih =>
    rw [scan_line h hl hne]
    have hle := (scan_rest_suffix (h.store l) rest).length_le
    simp only [List.length_append, List.length_cons]
    omega
  | broken l after hl ha =>
    rw [scan_broken h hl ha]
    simp only [Outcome.rest, List.length_drop, List.length_append, List.length_cons]
    omega

/-- Text without long lines is not overlong. -/
private theorem NoLongLine.not_overlong {max : Limit} {t : Str} (h : NoLongLine max t) :
    ¬ Overlong max t := by
  intro ho
  induction ho with
  | here t ht =>
    rw [h _ (List.takeWhile_prefix _).isInfix] at ht
    · cases ht
    · intro hcr
      simpa using List.mem_takeWhile_imp hcr
  | later l rest hl hne _ ih =>
    apply ih
    intro l' hl'
    apply h l'
    exact hl'.trans (List.IsSuffix.isInfix
      (((List.suffix_cons _ _).trans (List.suffix_cons _ _)).trans (List.suffix_append _ _)))

/-- Parsing chunks without long lines is feeding them to the scanner. -/
private theorem parseChunks_eq_feed (max : Limit) (cs : List Str) {s : Str} {p : Nat} (h : Hdrs)
    (hp : p ≤ s.length) (hB : NoLongLine max (s.drop p ++ cs.flatten)) :
    parseChunks max (.sound s p) h cs = .ok ((feed scan h (s.drop p) cs).isDone,
      (feed scan h (s.drop p) cs).state, (feed scan h (s.drop p) cs).rest) := by
  induction cs generalizing s p h with
  | nil => rfl
  | cons c cs ih =>
    have hdrop : (s ++ c).drop p = s.drop p ++ c := List.drop_append_of_le_length hp
    have hp' : p ≤ (s ++ c).length := by
      rw [List.length_append]
      omega
    have hlines : NoLongLine max ((s ++ c).drop p) := by
      intro l hl
      apply hB l
      rw [hdrop] at hl
      rw [List.flatten_cons, ← List.append_assoc]
      exact hl.trans (List.prefix_append _ _).isInfix
    obtain ⟨q, hq, hrest, hparse⟩ := parse_eq_scan hp' h hlines.not_overlong
    rw [parseChunks, IStream.insert_sound, hparse, feed, ← hdrop]
    have hsuf := scan_rest_suffix h ((s ++ c).drop p)
    cases hs : scan h ((s ++ c).drop p) with
    | done h' r =>
      rw [hs] at hrest
      simp only [Outcome.isDone, Outcome.state, Outcome.rest] at hrest ⊢
      rw [← hrest]
      rfl
    | more h' r =>
      rw [hs] at hrest hsuf
      simp only [Outcome.isDone, Outcome.state, Outcome.rest] at hrest hsuf ⊢
      rw [← hrest]
      apply ih h' hq
      intro l hl
      apply hB l
      rw [List.flatten_cons, ← List.append_assoc, ← hdrop]
      rw [hrest] at hl
      obtain ⟨a, ha⟩ := hsuf
      rw [← ha, List.append_assoc]
      exact hl.trans (List.suffix_append _ _).isInfix

/-- The same from an empty stream. -/
theorem parseChunks_new {max : Limit} {cs : List Str} (h : Hdrs)
    (hB : NoLongLine max cs.flatten) :
    parseChunks max (.new []) h cs = .ok ((feed scan h [] cs).isDone, (feed scan h [] cs).state,
      (feed scan h [] cs).rest) :=
  parseChunks_eq_feed max cs (s := []) h (Nat.le_refl 0) hB

/-- One more carriage return makes no line longer. -/
theorem NoLongLine.concat {max : Limit} {t : Str} (h : NoLongLine max t) :
    NoLongLine max (t ++ ['\r']) := by
  intro l hl hcr
  rcases List.infix_concat_iff.mp hl with hsuf | hinf
  · rcases List.suffix_concat_iff.mp hsuf with rfl | ⟨l, rfl, -⟩
    · exact max.exceeded_zero
    · simp at hcr
  · exact h l hinf hcr

/-- At every moment of reading these chunks, whatever comes next is read as if it had all come
at once. -/
def Seamless (max : Limit) (h : Hdrs) (cs : List Str) : Prop :=
  ∀ p, p <+: cs → ∀ d, NoLongLine max (p.flatten ++ d) →
    parseChunks max (.new []) h (p ++ [d]) = parseChunks max (.new []) h [p.flatten ++ d]

/-- Reading chunks after whole texts, and one more, is one call on all of it. -/
theorem feed_of_whole (h : Hdrs) {cs : List Str} (hw : ∀ p, p <+: cs → Whole p.flatten) (d : Str) :
    feed scan h [] (cs ++ [d]) = scan h (cs.flatten ++ d) := by
  have hone := feed_of_resumes scan scan_stable cs (s := h) (t := []) (fun d ↦ rfl)
    (fun q hq _ ↦ resumes_of_whole (by simpa using hw q hq) h) d
  simpa using hone

/-- Where chunks are read as if they had come at once, the text is whole after each. -/
private theorem whole_of_seamless {max : Limit} {h : Hdrs} {cs : List Str}
    (hB : NoLongLine max cs.flatten) (hS : Seamless max h cs) :
    ∀ p, p <+: cs → Whole p.flatten := by
  induction cs using List.reverseRecOn with
  | nil =>
    intro p hp
    rw [List.prefix_nil.mp hp]
    exact .piece [] List.not_mem_nil
  | append_singleton cs c ih =>
    have hcs : cs <+: cs ++ [c] := List.prefix_append cs [c]
    have hflat : (cs ++ [c]).flatten = cs.flatten ++ c := by simp
    rw [hflat] at hB
    have hw := ih (fun l hl ↦ hB l (hl.trans (List.prefix_append _ _).isInfix))
      (fun p hp ↦ hS p (hp.trans hcs))
    intro p hp
    rcases List.prefix_concat_iff.mp hp with rfl | hp
    · by_contra hnw
      rw [hflat] at hnw
      obtain ⟨h', r, hs⟩ := scan_of_not_whole hnw h
      -- one more carriage return, and the scanner drops a character that one call keeps
      have hd := hS (cs ++ [c]) (List.prefix_refl _) ['\r'] (by rw [hflat]; exact hB.concat)
      have hmany : NoLongLine max (cs ++ [c] ++ [['\r']]).flatten := by simpa using hB.concat
      have hone : NoLongLine max [cs.flatten ++ c ++ ['\r']].flatten := by simpa using hB.concat
      rw [hflat] at hd
      rw [parseChunks_new h hmany, parseChunks_new h hone] at hd
      have hmore : feed scan h [] (cs ++ [c]) = .more h' r := by
        rw [feed_of_whole h hw]
        simpa using hs [] (by simp)
      rw [feed_append_of_more scan hmore, feed_singleton, feed_singleton, List.nil_append,
        hs ['\r'] (by simp)] at hd
      have hrest : (scan h' (r ++ ['\r'])).rest = r ++ ['\r'] := by
        exact congrArg (fun o : Bool × Hdrs × Str ↦ o.2.2) (Except.ok.inj hd)
      have hlt := scan_rest_lt (t := r ++ ['\r']) (by simp) h'
      rw [hrest] at hlt
      exact lt_irrefl _ hlt
    · exact hw p hp

/-- Chunks without long lines are read as if they had come at once, whatever comes next, if
and only if the text is whole after each of them. -/
theorem seamless_iff_whole (max : Limit) (h : Hdrs) (cs : List Str)
    (hB : NoLongLine max cs.flatten) :
    Seamless max h cs ↔ ∀ p, p <+: cs → Whole p.flatten := by
  constructor
  · exact whole_of_seamless hB
  · intro hw p hp d hd
    have hone : NoLongLine max [p.flatten ++ d].flatten := by simpa using hd
    have hmany : NoLongLine max (p ++ [d]).flatten := by simpa using hd
    rw [parseChunks_new h hmany, parseChunks_new h hone,
      feed_of_whole h (fun q hq ↦ hw q (hq.trans hp)), feed_singleton, List.nil_append]

/-- A request whose second chunk starts within a line. -/
theorem seamless_iff_whole_within_line : Seamless (some 80) .empty
    ["GET / HTTP/1.1\r\nHo".toList, "st: filth\r\n\r\n".toList] := by
  apply (seamless_iff_whole (some 80) .empty _ _).mpr
  · intro p hp
    have hw : Whole ("GET / HTTP/1.1".toList ++ '\r' :: '\n' :: "Ho".toList) :=
      .line _ _ (by decide) (by decide) (.piece _ (by decide))
    have hw' : Whole ("GET / HTTP/1.1".toList ++ '\r' :: '\n' ::
        ("Host: filth".toList ++ '\r' :: '\n' :: '\r' :: '\n' :: [])) :=
      .line _ _ (by decide) (by decide) (.line _ _ (by decide) (by decide) (.empty []))
    simp only [List.prefix_cons_iff, List.prefix_nil] at hp
    rcases hp with rfl | ⟨_, rfl, rfl | ⟨_, rfl, rfl⟩⟩
    · exact .piece [] List.not_mem_nil
    · exact hw
    · exact hw'
  · intro l hl _
    have hlen : ¬ 80 < l.length := Nat.not_lt.mpr (hl.length_le.trans (by decide))
    simpa [Limit.exceeded] using hlen

/-- A chunk ends between the two characters that end the request line: the line has lost its
first letter when the next chunk completes it. -/
theorem not_seamless_of_cut_crlf : ¬ ∀ (max : Limit) (h : Hdrs) (cs : List Str),
    NoLongLine max cs.flatten →
    parseChunks max (.new []) h cs = parseChunks max (.new []) h [cs.flatten] := by
  intro h
  have hcut := h none .empty ["GET / HTTP/1.1\r".toList, "\n\r\n".toList] (fun _ _ _ ↦ rfl)
  have hreq := congrArg (Except.map fun o : Bool × Hdrs × Str ↦ o.2.1.reqln) hcut
  exact absurd hreq (by decide)

end Filth
