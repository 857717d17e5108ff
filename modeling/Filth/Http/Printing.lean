import Filth.Http.CacheEntry
import Filth.Http.Parsing

/-!
# What is printed is a block of lines

`HTTP_parsing::operator<<`, `src/HTTP_parsing.cpp:69–78`, and the printing of cache entries write
lines and an empty line. The parser takes such a block and leaves what follows, and a header that
has been printed is recognised.
-/

namespace Filth

open Base

/-- A request as it is sent: its lines, and an empty line. -/
def block (lines : List Str) : Str := lines.flatMap (· ++ crlf) ++ crlf

/-- The headers that the lines of a request make. -/
def hdrsOf (lines : List Str) : Hdrs := lines.foldl Hdrs.store .empty

theorem block_cons (l : Str) (lines : List Str) (rest : Str) :
    block (l :: lines) ++ rest = l ++ '\r' :: '\n' :: (block lines ++ rest) := by
  simp [block, crlf]

theorem block_ne_nil (lines : List Str) : block lines ≠ [] := by simp [block, crlf]

/-- The scanner takes a block and leaves what follows. -/
theorem scan_block {lines : List Str} (h : ∀ l ∈ lines, l ≠ [] ∧ '\r' ∉ l) (hdrs : Hdrs)
    (rest : Str) : scan hdrs (block lines ++ rest) = .done (lines.foldl Hdrs.store hdrs) rest := by
  induction lines generalizing hdrs with
  | nil => exact scan_empty hdrs rest
  | cons l lines ih =>
    obtain ⟨hne, hl⟩ := h l List.mem_cons_self
    rw [block_cons, scan_line hdrs hl hne, ih fun l' hl' ↦ h l' (List.mem_cons_of_mem l hl')]
    rfl

/-- What follows a block does not make it overlong. -/
theorem not_overlong_block {max : Limit} {lines : List Str} (h : ∀ l ∈ lines, l ≠ [] ∧ '\r' ∉ l)
    (hshort : ∀ l ∈ lines, max.exceeded l.length = false) (rest : Str) :
    ¬ Overlong max (block lines ++ rest) := by
  induction lines with
  | nil =>
    intro ho
    exact ((overlong_line max (l := []) List.not_mem_nil).mp ho).1 rfl
  | cons l lines ih =>
    rw [block_cons, overlong_line max (h l List.mem_cons_self).2]
    rintro ⟨-, hlong | ho⟩
    · rw [hshort l List.mem_cons_self] at hlong
      cases hlong
    · exact ih (fun l' hl' ↦ h l' (List.mem_cons_of_mem l hl'))
        (fun l' hl' ↦ hshort l' (List.mem_cons_of_mem l hl')) ho

/-- In a block that is not overlong, no line is. -/
theorem exceeded_of_not_overlong {max : Limit} {lines : List Str}
    (h : ∀ l ∈ lines, l ≠ [] ∧ '\r' ∉ l) {rest : Str} (hshort : ¬ Overlong max (block lines ++ rest)) :
    ∀ l ∈ lines, max.exceeded l.length = false := by
  induction lines with
  | nil => exact fun l hl ↦ absurd hl List.not_mem_nil
  | cons l lines ih =>
    obtain ⟨hne, hl⟩ := h l List.mem_cons_self
    rw [block_cons, overlong_line max hl] at hshort
    simp only [List.forall_mem_cons]
    constructor
    · exact Bool.eq_false_iff.mpr fun he ↦ hshort ⟨hne, .inl he⟩
    · exact ih (fun l' hl' ↦ h l' (List.mem_cons_of_mem l hl')) fun ho ↦ hshort ⟨hne, .inr ho⟩

/-! ### Names in the tables -/

/-- The names of headers are made of letters, digits and underscores. -/
theorem Header.mem_str {h : Header} {c : Char} (hc : c ∈ h.str) :
    c.isAlphanum = true ∨ c = '_' := by
  have hall : (h.str.all fun c ↦ c.isAlphanum || c == '_') = true := by cases h <;> rfl
  simpa using List.all_eq_true.mp hall c hc

/-- So are those of statuses. -/
theorem Status.mem_str {s : Status} {c : Char} (hc : c ∈ s.str) :
    c.isAlphanum = true ∨ c = '_' := by
  have hall : (s.str.all fun c ↦ c.isAlphanum || c == '_') = true := by cases s <;> rfl
  simpa using List.all_eq_true.mp hall c hc

/-- Printing such a name puts nothing else into it than what underscores are replaced by. -/
theorem not_mem_printed {n : Str} (hn : ∀ c ∈ n, c.isAlphanum = true ∨ c = '_') {d e : Char}
    (hd : d.isAlphanum = false) (hde : d ≠ e) :
    d ∉ n.map fun c ↦ if c = '_' then e else c := by
  intro hmem
  obtain ⟨c, hc, heq⟩ := List.mem_map.mp hmem
  split at heq
  · exact hde heq.symm
  · next hne =>
    subst heq
    rcases hn c hc with halpha | hunderscore
    · cases hd.symm.trans halpha
    · exact hne hunderscore

/-! ### Header lines -/

/-- The name of a header with hyphens, as it is printed. -/
def Header.hyphenated (h : Header) : Str := h.str.map fun c ↦ if c = '_' then '-' else c

theorem Header.not_mem_hyphenated (h : Header) {d : Char} (hd : d.isAlphanum = false)
    (hne : d ≠ '-') : d ∉ h.hyphenated :=
  not_mem_printed (fun _ ↦ mem_str) hd hne

/-- Writing underscores restores the name in the table. -/
theorem Header.underscored_hyphenated (h : Header) :
    (h.hyphenated.map fun c ↦ if c = '-' then '_' else c) = h.str := by
  rw [hyphenated, List.map_map]
  refine (List.map_congr_left fun c hc ↦ ?_).trans (List.map_id h.str)
  have hne : c ≠ '-' := by
    rintro rfl
    exact absurd (mem_str hc) (by decide)
  by_cases hunderscore : c = '_'
  · simp [hunderscore]
  · simp [hunderscore, hne]

/-- Reading undoes what printing does to the name of a header. -/
private theorem Header.trim_hyphenated (h : Header) :
    trim (h.hyphenated.map fun c ↦ if c = '-' then '_' else c) = h.str := by
  rw [underscored_hyphenated]
  apply trim_eq_self
  intro c hc
  apply Bool.eq_false_of_not_eq_true
  intro hspace
  simp only [isspace, List.mem_cons, List.not_mem_nil, or_false, decide_eq_true_eq] at hspace
  rcases hspace with rfl | rfl | rfl | rfl | rfl | rfl <;> exact absurd (mem_str hc) (by decide)

/-- A printed header is recognised; what is left is its value, after a space. -/
theorem Header.extract_print (h : Header) (v : Str) :
    extract (h.print ++ v) = some (h, ' ' :: v) := by
  have hprint : h.print ++ v = h.hyphenated ++ ':' :: ' ' :: v := by simp [print, hyphenated]
  have htake : (h.print ++ v).takeWhile (fun c ↦ decide (c ≠ ':')) = h.hyphenated := by
    rw [hprint, takeWhile_ne_append (h.not_mem_hyphenated (by decide) (by decide))]
  have hlen : h.hyphenated.length < (h.print ++ v).length := by
    rw [hprint]
    simp
  unfold extract
  dsimp only
  rw [htake, if_pos hlen, h.trim_hyphenated, find_str, hprint]
  simp

/-- A line without a colon is no header. -/
theorem Header.extract_eq_none {l : Str} (h : ':' ∉ l) : extract l = none := by
  unfold extract
  dsimp only
  rw [takeWhile_ne_eq_self h, if_neg (Nat.lt_irrefl _)]

/-! ### Values -/

/-- There is nothing to be cut off a string without a NUL. -/
theorem cstr_eq_self {s : Str} (h : '\x00' ∉ s) : cstr s = s := takeWhile_ne_eq_self h

/-- A string is not cut off before its first NUL. -/
theorem cstr_append {s : Str} (h : '\x00' ∉ s) (t : Str) : cstr (s ++ t) = s ++ cstr t := by
  apply List.takeWhile_append_of_pos
  intro c hc
  rw [decide_eq_true_eq]
  rintro rfl
  exact h hc

theorem nul_not_mem_cstr (s : Str) : '\x00' ∉ cstr s := by
  intro h
  simpa using List.mem_takeWhile_imp h

/-- A value that does not end a line, nor a C string. -/
def Clean (v : Str) : Prop := '\r' ∉ v ∧ '\n' ∉ v ∧ '\x00' ∉ v

instance (v : Str) : Decidable (Clean v) :=
  inferInstanceAs (Decidable ('\r' ∉ v ∧ '\n' ∉ v ∧ '\x00' ∉ v))

theorem clean_decimal (n : Nat) : Clean (decimal n) := by
  have hdigit (c : Char) (hc : c ∈ decimal n) : c.isDigit = true :=
    Nat.isDigit_of_mem_toDigits (by decide) (by decide) hc
  refine ⟨?_, ?_, ?_⟩ <;> exact fun h ↦ absurd (hdigit _ h) (by decide)

theorem Clean.append {v v' : Str} (h : Clean v) (h' : Clean v') : Clean (v ++ v') := by
  simp only [Clean, List.mem_append, not_or] at *
  exact ⟨⟨h.1, h'.1⟩, ⟨h.2.1, h'.2.1⟩, h.2.2, h'.2.2⟩

private theorem clean_printed {n : Str} (hn : ∀ c ∈ n, c.isAlphanum = true ∨ c = '_') {e : Char}
    (he : Clean [e]) : Clean (n.map fun c ↦ if c = '_' then e else c) := by
  simp only [Clean, List.mem_singleton] at he
  exact ⟨not_mem_printed hn (by decide) he.1, not_mem_printed hn (by decide) he.2.1,
    not_mem_printed hn (by decide) he.2.2⟩

theorem Status.clean_print (s : Status) : Clean s.print := by
  have hname := clean_printed (fun _ ↦ s.mem_str) (by decide : Clean [' '])
  have hspace : Clean [' '] := by decide
  exact (clean_decimal s.val).append (hspace.append hname)

theorem Header.clean_print (h : Header) : Clean h.print := by
  have hname := clean_printed (fun _ ↦ h.mem_str) (by decide : Clean ['-'])
  have hcolon : Clean [':', ' '] := by decide
  exact hname.append hcolon

/-- A status line and some headers, as lines. -/
def statusAndHeaders (stat : Status) (hs : List (Header × Str)) : List Str :=
  (httpVersion ++ ' ' :: stat.print) :: hs.map fun p ↦ p.1.print ++ p.2

/-- The headers that printing an entry writes. -/
def HeaderBlock.headers (b : HeaderBlock) : List (Header × Str) :=
  (.contentLength, decimal b.contentLength) :: (.contentEncoding, b.contentEncoding.str) ::
    (.server, packageName) :: b.hdrs

theorem HeaderBlock.text_eq_block (b : HeaderBlock) :
    b.text = block (statusAndHeaders b.stat b.headers) := by
  simp [text, block, statusAndHeaders, headers, line, crlf, List.flatMap, Function.comp_def]

/-! ### Printing what has been parsed -/

/-- What the scanner takes is a block. -/
theorem scan_eq_done {h h' : Hdrs} {t rest : Str} (hscan : scan h t = .done h' rest) :
    ∃ lines, (∀ l ∈ lines, l ≠ [] ∧ '\r' ∉ l) ∧ t = block lines ++ rest ∧
      h' = lines.foldl Hdrs.store h := by
  induction t using text_induction generalizing h with
  | piece l hl =>
    rw [scan_piece h hl] at hscan
    cases hscan
  | empty after =>
    rw [scan_empty] at hscan
    cases hscan
    exact ⟨[], fun l hl ↦ absurd hl List.not_mem_nil, rfl, rfl⟩
  | line l after hl hne ih =>
    rw [scan_line h hl hne] at hscan
    obtain ⟨lines, hlines, rfl, rfl⟩ := ih hscan
    refine ⟨l :: lines, ?_, (block_cons l lines rest).symm, rfl⟩
    simp only [List.forall_mem_cons]
    exact ⟨⟨hne, hl⟩, hlines⟩
  | broken l after hl ha =>
    rw [scan_broken h hl ha] at hscan
    cases hscan

namespace Hdrs

/-- Each slot is empty or holds a line with a property, and the line belongs there. -/
structure Slotted (P : Str → Prop) (h : Hdrs) : Prop where
  reqln : h.reqln = [] ∨ P h.reqln ∧ httpVersion <:+: h.reqln
  hdr (hd) : h.hdr hd = [] ∨ P (h.hdr hd) ∧ ¬ httpVersion <:+: h.hdr hd ∧
    ∃ value, Header.extract (h.hdr hd) = some (hd, value)

variable {P : Str → Prop}

theorem slotted_empty : empty.Slotted P := ⟨.inl rfl, fun _ ↦ .inl rfl⟩

theorem Slotted.store {h : Hdrs} (hs : h.Slotted P) {line : Str} (hline : P line) :
    (h.store line).Slotted P := by
  unfold Hdrs.store
  split
  · next hversion => exact ⟨.inr ⟨hline, hversion⟩, hs.hdr⟩
  · next hversion =>
    split
    · next hd value hname =>
      refine ⟨hs.reqln, fun hd' ↦ ?_⟩
      by_cases heq : hd' = hd
      · subst heq
        simp only [Function.update_self]
        exact .inr ⟨hline, hversion, value, hname⟩
      · simp only [Function.update_of_ne heq]
        exact hs.hdr hd'
    · exact hs

theorem Slotted.foldl {h : Hdrs} (hs : h.Slotted P) {lines : List Str}
    (hlines : ∀ l ∈ lines, P l) : (lines.foldl Hdrs.store h).Slotted P := by
  induction lines generalizing h with
  | nil => exact hs
  | cons l lines ih =>
    exact ih (hs.store (hlines l List.mem_cons_self))
      fun l' hl' ↦ hlines l' (List.mem_cons_of_mem l hl')

/-- The lines that printing the slots writes. -/
def lines (h : Hdrs) : List Str := (h.reqln :: Header.all.reverse.map h.hdr).filter (· ≠ [])

theorem print_eq_block (h : Hdrs) : h.print = block h.lines := rfl

theorem Slotted.forall_lines {h : Hdrs} (hs : h.Slotted P) : ∀ l ∈ h.lines, l ≠ [] ∧ P l := by
  intro l hl
  obtain ⟨hl, hne⟩ := List.mem_filter.mp hl
  have hne : l ≠ [] := by simpa using hne
  refine ⟨hne, ?_⟩
  rcases List.mem_cons.mp hl with rfl | hl
  · exact (hs.reqln.resolve_left hne).1
  · obtain ⟨hd, -, rfl⟩ := List.mem_map.mp hl
    exact ((hs.hdr hd).resolve_left hne).1

/-- Storing the lines of some slots again fills these slots. -/
theorem Slotted.foldl_slots {h : Hdrs} (hs : h.Slotted P) (hds : List Header) (g : Hdrs) :
    ((hds.map h.hdr).filter (· ≠ [])).foldl Hdrs.store g =
      { g with hdr := fun hd ↦ if hd ∈ hds ∧ h.hdr hd ≠ [] then h.hdr hd else g.hdr hd } := by
  induction hds generalizing g with
  | nil => simp
  | cons hd hds ih =>
    rw [List.map_cons]
    by_cases hempty : h.hdr hd = []
    · rw [List.filter_cons_of_neg (by simpa using hempty), ih]
      congr 1
      funext hd'
      by_cases heq : hd' = hd
      · simp [heq, hempty]
      · simp [heq]
    · obtain ⟨-, hversion, value, hname⟩ := (hs.hdr hd).resolve_left hempty
      have hstore : g.store (h.hdr hd) = { g with hdr := Function.update g.hdr hd (h.hdr hd) } := by
        rw [Hdrs.store, if_neg hversion, hname]
      rw [List.filter_cons_of_pos (by simpa using hempty), List.foldl_cons, ih, hstore]
      congr 1
      funext hd'
      by_cases heq : hd' = hd
      · simp [heq, hempty]
      · simp [heq]

/-- Storing the lines of all slots again gives the same headers. -/
theorem Slotted.foldl_lines {h : Hdrs} (hs : h.Slotted P) : h.lines.foldl Hdrs.store .empty = h := by
  have hall (hd : Header) : hd ∈ Header.all.reverse := by cases hd <;> decide
  have hslots : (fun hd ↦ if hd ∈ Header.all.reverse ∧ h.hdr hd ≠ [] then h.hdr hd else []) =
      h.hdr := by
    funext hd
    by_cases hempty : h.hdr hd = []
    · simp [hempty]
    · simp [hall hd]
  unfold lines
  rcases hs.reqln with hempty | ⟨-, hversion⟩
  · rw [List.filter_cons_of_neg (by simpa using hempty), hs.foldl_slots]
    change Hdrs.mk [] (fun hd ↦ if hd ∈ Header.all.reverse ∧ h.hdr hd ≠ [] then h.hdr hd else []) = h
    rw [hslots, ← hempty]
  · have hne : h.reqln ≠ [] := by
      intro hnil
      rw [hnil] at hversion
      exact absurd hversion (by decide)
    rw [List.filter_cons_of_pos (by simpa using hne), List.foldl_cons, Hdrs.store, if_pos hversion,
      hs.foldl_slots]
    change Hdrs.mk h.reqln
      (fun hd ↦ if hd ∈ Header.all.reverse ∧ h.hdr hd ≠ [] then h.hdr hd else []) = h
    rw [hslots]

/-- The scanner undoes printing, and leaves what follows. -/
theorem Slotted.scan_print {h : Hdrs} (hs : h.Slotted P) (hP : ∀ l, P l → '\r' ∉ l) (rest : Str) :
    scan .empty (h.print ++ rest) = .done h rest := by
  rw [print_eq_block, scan_block, hs.foldl_lines]
  intro l hl
  obtain ⟨hne, hl⟩ := hs.forall_lines l hl
  exact ⟨hne, hP l hl⟩

end Hdrs
end Filth
