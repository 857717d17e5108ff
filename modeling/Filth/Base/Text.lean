import Mathlib

/-!
# Byte strings and input streams

A `char` of the source is a `Char` and a `std::string` a list of them. The functions below
follow the standard library: C strings end at the first NUL, formatted extraction skips
white space first, and a failed conversion leaves zero. `IStream` is a `std::stringstream`:
its text, the read position and the two state flags, which all reading operations honour.
-/

namespace Filth.Base

/-- A `std::string`. -/
abbrev Str := List Char

/-- What stands before the first of the delimiters. -/
theorem takeWhile_ne_append {l : Str} {d : Char} (h : d ∉ l) (after : Str) :
    (l ++ d :: after).takeWhile (fun c ↦ decide (c ≠ d)) = l := by
  rw [List.takeWhile_append_of_pos]
  · simp
  · intro c hc
    simp only [ne_eq, decide_eq_true_eq]
    rintro rfl
    exact h hc

/-- Where there is no delimiter, everything. -/
theorem takeWhile_ne_eq_self {l : Str} {d : Char} (h : d ∉ l) :
    l.takeWhile (fun c ↦ decide (c ≠ d)) = l := by
  rw [List.takeWhile_eq_self_iff]
  intro c hc
  simp only [ne_eq, decide_eq_true_eq]
  rintro rfl
  exact h hc

/-- There is a delimiter just where less than everything stands before it. -/
theorem length_takeWhile_ne_lt_iff {l : Str} {d : Char} :
    (l.takeWhile fun c ↦ decide (c ≠ d)).length < l.length ↔ d ∈ l := by
  constructor
  · intro hlt
    by_contra hno
    rw [takeWhile_ne_eq_self hno] at hlt
    exact Nat.lt_irrefl _ hlt
  · intro hmem
    obtain ⟨a, b, rfl, ha⟩ := List.eq_append_cons_of_mem hmem
    rw [takeWhile_ne_append ha]
    simp

/-- What a C string function sees of a buffer: everything before the first NUL. -/
def cstr (s : Str) : Str := s.takeWhile (· ≠ '\x00')

/-- `isspace` in the C locale. -/
def isspace (c : Char) : Bool := c ∈ [' ', '\t', '\n', '\x0b', '\x0c', '\r']

/-- `tolower` in the C locale, character by character. -/
def lower (s : Str) : Str := s.map Char.toLower

/-- Drop white space at both ends. -/
def trim (s : Str) : Str := ((s.dropWhile isspace).reverse.dropWhile isspace).reverse

/-- There is nothing to be dropped from a text without white space. -/
theorem trim_eq_self {s : Str} (h : ∀ c ∈ s, isspace c = false) : trim s = s := by
  have hdrop {t : Str} (ht : ∀ c ∈ t, isspace c = false) : t.dropWhile isspace = t := by
    cases t with
    | nil => rfl
    | cons c t =>
      rw [List.dropWhile_cons, ht c List.mem_cons_self]
      rfl
  rw [trim, hdrop h, hdrop fun c hc ↦ h c (List.mem_reverse.mp hc), List.reverse_reverse]

/-- Trimmed text begins where the white space in front ends. -/
theorem head?_trim {s : Str} {c : Char} (h : (trim s).head? = some c) :
    (s.dropWhile isspace).head? = some c := by
  have hprefix : trim s <+: s.dropWhile isspace := by
    rw [trim, ← List.reverse_suffix, List.reverse_reverse]
    exact List.dropWhile_suffix _
  obtain ⟨t, ht⟩ := hprefix
  rw [← ht, List.head?_append, h]
  rfl

theorem isspace_head?_trim {s : Str} {c : Char} (h : (trim s).head? = some c) :
    isspace c = false := by
  have hnot := List.head?_dropWhile_not isspace s
  rw [head?_trim h] at hnot
  exact hnot

theorem isspace_getLast?_trim {s : Str} {c : Char} (h : (trim s).getLast? = some c) :
    isspace c = false := by
  have hnot := List.head?_dropWhile_not isspace (s.dropWhile isspace).reverse
  rw [trim, List.getLast?_reverse] at h
  rw [h] at hnot
  exact hnot

/-- Formatted extraction of a word, with what is left; a word that is not there is empty. -/
def word (s : Str) : Str × Str :=
  ((s.dropWhile isspace).takeWhile fun c ↦ !isspace c,
   (s.dropWhile isspace).dropWhile fun c ↦ !isspace c)

/-- Value of a string of decimal digits. -/
def digitsValue (s : Str) : Nat := s.foldl (fun n c ↦ 10 * n + (c.toNat - '0'.toNat)) 0

/-- The sign, the digits and what is left of a number at the front of a string. -/
def numeral (s : Str) : Bool × Str × Str :=
  let body := match s with
    | '-' :: rest => (true, rest)
    | '+' :: rest => (false, rest)
    | rest => (false, rest)
  (body.1, body.2.takeWhile Char.isDigit, body.2.dropWhile Char.isDigit)

/-- Formatted extraction of a `time_t`: at the end of the text the old value stays, without
digits the value becomes zero, and too large a number becomes the nearest representable. -/
def extractTime (s : Str) (old : Int) : Int :=
  if s.dropWhile isspace = [] then old
  else
    let (neg, ds, _) := numeral (s.dropWhile isspace)
    if neg then max (-(digitsValue ds : Int)) (-2 ^ 63) else min (digitsValue ds : Int) (2 ^ 63 - 1)

/-- Formatted extraction of a `size_t`: as for `time_t`, except that a minus sign negates
modulo `2 ^ 64`. -/
def extractSize (s : Str) (old : Nat) : Nat :=
  if s.dropWhile isspace = [] then old
  else
    let (neg, ds, _) := numeral (s.dropWhile isspace)
    if 2 ^ 64 ≤ digitsValue ds then 2 ^ 64 - 1
    else if neg then (2 ^ 64 - digitsValue ds) % 2 ^ 64 else digitsValue ds

/-- Decimal digits of a number. -/
def decimal (n : Nat) : Str := Nat.toDigits 10 n

/-- A `std::stringstream` as its readers see it. -/
structure IStream where
  text : Str
  pos : Nat
  eof : Bool
  fail : Bool
  deriving DecidableEq, Repr

namespace IStream

/-- A stream over a text, at its beginning. -/
def new (s : Str) : IStream := { text := s, pos := 0, eof := false, fail := false }

/-- What has not been read yet. -/
def rest (i : IStream) : Str := i.text.drop i.pos

/-- `good()`: neither flag is set. -/
def good (i : IStream) : Bool := !i.eof && !i.fail

/-- `clear()`. -/
def clear (i : IStream) : IStream := { i with eof := false, fail := false }

/-- Insertion at the end; the flags are shared with the reading side, so it happens only on a
good stream. -/
def insert (i : IStream) (s : Str) : IStream :=
  if i.good then { i with text := i.text ++ s } else { i with fail := true }

/-- `getline` up to a delimiter, which is read and dropped. -/
def getline (i : IStream) (delim : Char) : Str × IStream :=
  if i.good then
    let line := i.rest.takeWhile (· ≠ delim)
    if line.length < i.rest.length then (line, { i with pos := i.pos + line.length + 1 })
    else (line, { i with pos := i.pos + line.length, eof := true, fail := line.isEmpty })
  else ([], { i with fail := true })

/-- `peek()`. -/
def peek (i : IStream) : Option Char × IStream :=
  if i.good then
    match i.rest with
    | [] => (none, { i with eof := true })
    | c :: _ => (some c, i)
  else (none, { i with fail := true })

/-- `ignore()` of one character. -/
def ignore (i : IStream) : IStream :=
  if i.good then
    match i.rest with
    | [] => { i with eof := true }
    | _ :: _ => { i with pos := i.pos + 1 }
  else { i with fail := true }

/-- `unget()`. -/
def unget (i : IStream) : IStream := { i with pos := i.pos - 1, eof := false }

/-- `seekg(-n, ios::cur)`. -/
def seekBack (i : IStream) (n : Nat) : IStream :=
  if i.fail then i else { i with pos := i.pos - n, eof := false }

/-- `read` of up to `n` characters. A `size_t` is taken for a `streamsize`, which is signed: from
`2 ^ 63` on it is negative, and nothing is read. If the number is not reached the stream fails. -/
def read (i : IStream) (n : Nat) : Str × IStream :=
  if i.good then
    if n < 2 ^ 63 ∧ n ≤ i.rest.length then (i.rest.take n, { i with pos := i.pos + n })
    else
      let got := if n < 2 ^ 63 then i.rest else []
      (got, { i with pos := i.pos + got.length, eof := true, fail := true })
  else ([], { i with fail := true })

/-- No more is read than has been asked for. -/
theorem length_read_le (i : IStream) (n : Nat) : (i.read n).1.length ≤ n := by
  unfold read
  split
  · split
    · exact List.length_take_le n i.rest
    · next hshort =>
      dsimp only
      split
      · next hn => exact Nat.le_of_not_le fun hle ↦ hshort ⟨hn, hle⟩
      · exact Nat.zero_le n
  · exact Nat.zero_le n

/-- Nor is a line longer than the text that it is read from. -/
theorem length_getline_le (i : IStream) (delim : Char) :
    (i.getline delim).1.length ≤ i.text.length := by
  have hle : (i.rest.takeWhile fun c ↦ decide (c ≠ delim)).length ≤ i.text.length :=
    (List.takeWhile_sublist _).length_le.trans (List.drop_sublist _ _).length_le
  unfold getline
  split
  · dsimp only
    split
    · exact hle
    · exact hle
  · exact Nat.zero_le _

/-- A stream in a good state. -/
def sound (s : Str) (n : Nat) : IStream := { text := s, pos := n, eof := false, fail := false }

theorem eq_sound_of_good {i : IStream} (h : i.good = true) : i = .sound i.text i.pos := by
  obtain ⟨text, pos, eof, fail⟩ := i
  simp only [good, Bool.and_eq_true, Bool.not_eq_true'] at h
  rw [sound, h.1, h.2]

@[simp] theorem good_sound (s : Str) (n : Nat) : (IStream.sound s n).good = true := rfl

@[simp] theorem rest_sound (s : Str) (n : Nat) : (IStream.sound s n).rest = s.drop n := rfl

@[simp] theorem fail_sound (s : Str) (n : Nat) : (IStream.sound s n).fail = false := rfl

@[simp] theorem clear_mk (s : Str) (n : Nat) (eof fail : Bool) :
    (IStream.mk s n eof fail).clear = .sound s n := rfl

@[simp] theorem clear_sound (s : Str) (n : Nat) : (IStream.sound s n).clear = .sound s n := rfl

@[simp] theorem seekBack_sound (s : Str) (n k : Nat) :
    (IStream.sound s n).seekBack k = .sound s (n - k) := rfl

@[simp] theorem insert_sound (s : Str) (n : Nat) (c : Str) :
    (IStream.sound s n).insert c = .sound (s ++ c) n := rfl

/-- A line that is terminated. -/
theorem getline_sound {s l after : Str} {n : Nat} {d : Char} (h : s.drop n = l ++ d :: after)
    (hl : d ∉ l) : (IStream.sound s n).getline d = (l, .sound s (n + l.length + 1)) := by
  simp only [getline, good_sound, rest_sound, h, takeWhile_ne_append hl, if_true]
  simp [sound]

/-- A line that is not terminated takes the rest of the text. -/
theorem getline_sound_end {s : Str} {n : Nat} {d : Char} (h : d ∉ s.drop n) :
    (IStream.sound s n).getline d = (s.drop n,
      { text := s, pos := n + (s.drop n).length, eof := true, fail := (s.drop n).isEmpty }) := by
  simp only [getline, good_sound, rest_sound, takeWhile_ne_eq_self h, if_true, lt_irrefl, if_false]
  rfl

/-- Looking at the next character changes nothing. -/
theorem peek_sound {s after : Str} {n : Nat} {c : Char} (h : s.drop n = c :: after) :
    (IStream.sound s n).peek = (some c, .sound s n) := by
  simp [peek, h]

/-- Looking past the end. -/
theorem peek_sound_end {s : Str} {n : Nat} (h : s.drop n = []) :
    (IStream.sound s n).peek = (none, ⟨s, n, true, false⟩) := by
  simp only [peek, good_sound, rest_sound, h, if_true]
  rfl

/-- Looking fails after the end has been met. -/
@[simp] theorem peek_eof (s : Str) (n : Nat) (fail : Bool) :
    (IStream.mk s n true fail).peek = (none, ⟨s, n, true, true⟩) := by
  cases fail <;> rfl

/-- Skipping a character. -/
theorem ignore_sound {s after : Str} {n : Nat} {c : Char} (h : s.drop n = c :: after) :
    (IStream.sound s n).ignore = .sound s (n + 1) := by
  simp only [ignore, good_sound, rest_sound, h, if_true]
  rfl

end IStream
end Filth.Base
