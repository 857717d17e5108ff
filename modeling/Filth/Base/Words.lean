import Filth.Base.Text

/-!
# Words in a text

Where a word occurs in a text that is put together from pieces: a word without separators does
not reach across one. And what formatted extraction finds in front of a blank, and behind the first
two words.
-/

namespace Filth.Base

section Infix

variable {α : Type} {w a b : List α} {c : α}

/-- What does not have a separator ends before it. -/
theorem prefix_of_prefix_append_cons (hc : c ∉ w) (h : w <+: a ++ c :: b) : w <+: a := by
  rcases List.prefix_or_prefix_of_prefix h (List.prefix_append a (c :: b)) with h' | ⟨t, rfl⟩
  · exact h'
  · rw [List.prefix_append_right_inj] at h
    cases t with
    | nil => simp
    | cons x t =>
      obtain ⟨rfl, -⟩ := List.cons_prefix_cons.mp h
      simp at hc

/-- A word does not reach across a separator. -/
theorem infix_append_cons_iff (hc : c ∉ w) : w <:+: a ++ c :: b ↔ w <:+: a ∨ w <:+: b := by
  constructor
  · intro h
    induction a with
    | nil =>
      rcases List.infix_cons_iff.mp h with h | h
      · exact .inl (prefix_of_prefix_append_cons (a := []) hc h).isInfix
      · exact .inr h
    | cons x a ih =>
      rcases List.infix_cons_iff.mp h with h | h
      · exact .inl (prefix_of_prefix_append_cons (a := x :: a) hc h).isInfix
      · exact (ih h).imp_left List.infix_cons
  · rintro (h | h)
    · exact List.infix_append_of_infix_left h
    · exact List.infix_append_of_infix_right (List.infix_cons h)

/-- A word is not found among other characters. -/
theorem not_infix_of_disjoint (hw : w ≠ []) (h : ∀ c ∈ a, c ∉ w) : ¬ w <:+: a := by
  intro hin
  obtain ⟨c, hc⟩ := List.exists_mem_of_ne_nil w hw
  exact h c (hin.subset hc) hc

/-- Padding in front holds no word. -/
theorem infix_pad_append_iff (hw : w ≠ []) (h : ∀ c ∈ a, c ∉ w) : w <:+: a ++ b ↔ w <:+: b := by
  induction a with
  | nil => rfl
  | cons x a ih =>
    rw [List.cons_append, ← List.nil_append (x :: (a ++ b)),
      infix_append_cons_iff (h x List.mem_cons_self), List.infix_nil, or_iff_right hw]
    exact ih fun c hc ↦ h c (List.mem_cons_of_mem x hc)

/-- Padding behind holds no word. -/
theorem infix_append_pad_iff (hw : w ≠ []) (h : ∀ c ∈ b, c ∉ w) : w <:+: a ++ b ↔ w <:+: a := by
  cases b with
  | nil => rw [List.append_nil]
  | cons x b =>
    rw [infix_append_cons_iff (h x List.mem_cons_self)]
    exact or_iff_left (not_infix_of_disjoint hw fun c hc ↦ h c (List.mem_cons_of_mem x hc))

end Infix

/-- White space is behind a word. -/
theorem isspace_head?_word {s : Str} {c : Char} (h : (word s).2.head? = some c) :
    isspace c = true := by
  have hnot := List.head?_dropWhile_not (fun c ↦ !isspace c) (s.dropWhile isspace)
  change ((s.dropWhile isspace).dropWhile fun c ↦ !isspace c).head? = some c at h
  rw [h] at hnot
  simpa using hnot

/-- No sign begins the text or follows white space in it. -/
def Unsigned (s : Str) : Prop :=
  (∀ c, s.head? = some c → c ≠ '-' ∧ c ≠ '+') ∧
    s.IsChain fun a b ↦ isspace a = true → b ≠ '-' ∧ b ≠ '+'

namespace Unsigned

variable {s t : Str} {c : Char}

theorem nil : Unsigned [] := ⟨nofun, .nil⟩

theorem append (hs : Unsigned s) (ht : Unsigned t) : Unsigned (s ++ t) := by
  constructor
  · intro c hc
    rw [List.head?_append] at hc
    cases hs' : s.head? with
    | none => exact ht.1 c (by simpa [hs'] using hc)
    | some x => exact hs.1 c (by simpa [hs'] using hc)
  · exact List.isChain_append.mpr ⟨hs.2, ht.2, fun _ _ b hb _ ↦ ht.1 b hb⟩

theorem of_forall (h : ∀ c ∈ s, c ≠ '-' ∧ c ≠ '+') : Unsigned s := by
  constructor
  · exact fun c hc ↦ h c (List.mem_of_mem_head? hc)
  · induction s with
    | nil => exact .nil
    | cons x s ih =>
      refine List.isChain_cons.mpr ⟨fun b hb _ ↦ h b ?_, ih fun c hc ↦ h c ?_⟩
      · exact List.mem_cons_of_mem x (List.mem_of_mem_head? hb)
      · exact List.mem_cons_of_mem x hc

/-- A piece without white space is checked at its front. -/
theorem of_word (h : ∀ c ∈ s, isspace c = false)
    (hhead : ∀ c, s.head? = some c → c ≠ '-' ∧ c ≠ '+') : Unsigned s := by
  refine ⟨hhead, List.isChain_iff_getElem.mpr fun i hi hspace ↦ ?_⟩
  rw [h _ (List.getElem_mem _)] at hspace
  cases hspace

theorem cons (hc : c ≠ '-' ∧ c ≠ '+') (hs : Unsigned s) : Unsigned (c :: s) :=
  append (s := [c]) (of_forall (by simpa using hc)) hs

/-- White space can be skipped. -/
theorem skip (hs : Unsigned s) : Unsigned (s.dropWhile isspace) := by
  induction s with
  | nil => exact hs
  | cons x s ih =>
    rw [List.dropWhile_cons]
    split
    · next hx =>
      refine ih ⟨fun c hc ↦ ?_, (List.isChain_cons.mp hs.2).2⟩
      exact (List.isChain_cons.mp hs.2).1 c hc hx
    · exact hs

/-- So can a word. -/
theorem word (hs : Unsigned s) : Unsigned (word s).2 := by
  have hchain := (hs.skip.2).suffix (List.dropWhile_suffix fun c ↦ !isspace c)
  refine ⟨fun c hc ↦ ?_, hchain⟩
  have hspace := isspace_head?_word hc
  constructor <;> rintro rfl <;> exact absurd hspace (by decide)

end Unsigned

/-- Trimming drops white space, and nothing else. -/
theorem exists_trim (s : Str) : ∃ a b, s = a ++ (trim s ++ b) ∧
    (∀ c ∈ a, isspace c = true) ∧ ∀ c ∈ b, isspace c = true := by
  refine ⟨s.takeWhile isspace, ((s.dropWhile isspace).reverse.takeWhile isspace).reverse, ?_,
    fun c hc ↦ List.mem_takeWhile_imp hc, fun c hc ↦ ?_⟩
  · rw [trim, ← List.reverse_append, List.takeWhile_append_dropWhile, List.reverse_reverse,
      List.takeWhile_append_dropWhile]
  · exact List.mem_takeWhile_imp (List.mem_reverse.mp hc)

/-- Nothing is left just where there is nothing but white space. -/
theorem trim_eq_nil_iff {s : Str} : trim s = [] ↔ ∀ c ∈ s, isspace c = true := by
  obtain ⟨a, b, hs, ha, hb⟩ := exists_trim s
  constructor
  · intro hnil c hc
    rw [hs, hnil, List.nil_append] at hc
    exact (List.mem_append.mp hc).elim (ha c) (hb c)
  · intro hblank
    by_contra hne
    obtain ⟨c, l, hc⟩ := List.exists_cons_of_ne_nil hne
    have hmem : c ∈ s := by
      rw [hs, hc]
      simp
    have hspace := isspace_head?_trim (s := s) (c := c) (by rw [hc]; rfl)
    rw [hblank c hmem] at hspace
    cases hspace

/-- A word in front of a blank. -/
theorem word_append {w : Str} (hne : w ≠ []) (hw : ∀ c ∈ w, isspace c = false) (rest : Str) :
    word (w ++ ' ' :: rest) = (w, ' ' :: rest) := by
  obtain ⟨c, w, rfl⟩ := List.exists_cons_of_ne_nil hne
  have hdrop : (c :: w ++ ' ' :: rest).dropWhile isspace = c :: w ++ ' ' :: rest := by
    rw [List.cons_append, List.dropWhile_cons, hw c List.mem_cons_self]
    rfl
  have hpos : ∀ d ∈ c :: w, (!isspace d) = true := fun d hd ↦ by rw [hw d hd]; rfl
  have hspace : isspace ' ' = true := by decide
  rw [word, hdrop, List.takeWhile_append_of_pos hpos, List.dropWhile_append_of_pos hpos]
  simp [hspace]

theorem word_space (s : Str) : word (' ' :: s) = word s := rfl

/-- A word at the end. -/
theorem word_self {w : Str} (hw : ∀ c ∈ w, isspace c = false) : word w = (w, []) := by
  have hdrop : w.dropWhile isspace = w := by
    cases w with
    | nil => rfl
    | cons c w =>
      rw [List.dropWhile_cons, hw c List.mem_cons_self]
      rfl
  have hpos : ∀ d ∈ w, (!isspace d) = true := fun d hd ↦ by rw [hw d hd]; rfl
  rw [word, hdrop, List.takeWhile_eq_self_iff.mpr hpos, List.dropWhile_eq_nil_iff.mpr hpos]

/-- The text from the third word on. -/
def thirdWord (s : Str) : Str := (word (word s).2).2.dropWhile isspace

/-- A word is taken off the front. -/
theorem exists_append_word (s : Str) : ∃ u, s = u ++ (word s).2 := by
  refine ⟨s.takeWhile isspace ++ (word s).1, ?_⟩
  rw [word, List.append_assoc, List.takeWhile_append_dropWhile, List.takeWhile_append_dropWhile]

/-- White space is in front of the third word. -/
theorem exists_thirdWord {s : Str} (h : thirdWord s ≠ []) :
    ∃ u c, s = u ++ c :: thirdWord s ∧ isspace c = true := by
  obtain ⟨u₁, h₁⟩ := exists_append_word s
  obtain ⟨u₂, h₂⟩ := exists_append_word (word s).2
  have hthird := List.takeWhile_append_dropWhile (p := isspace) (l := (word (word s).2).2)
  obtain ⟨v, c, hv⟩ : ∃ v c, (word (word s).2).2.takeWhile isspace = v ++ [c] := by
    simp only [← List.concat_eq_append]
    refine (List.eq_nil_or_concat _).resolve_left fun hnil ↦ ?_
    cases hrest : (word (word s).2).2 with
    | nil => exact h (by rw [thirdWord, hrest]; rfl)
    | cons d t =>
      have hd : isspace d = true := isspace_head?_word (by rw [hrest]; rfl)
      rw [hrest, List.takeWhile_cons_of_pos hd] at hnil
      cases hnil
  refine ⟨u₁ ++ (u₂ ++ v), c, ?_, ?_⟩
  · rw [hv] at hthird
    calc s = u₁ ++ (u₂ ++ (word (word s).2).2) := by rw [← h₂, ← h₁]
      _ = u₁ ++ (u₂ ++ (v ++ [c] ++ thirdWord s)) := by rw [thirdWord, hthird]
      _ = u₁ ++ (u₂ ++ v) ++ c :: thirdWord s := by simp
  · have hc : c ∈ (word (word s).2).2.takeWhile isspace := by simp [hv]
    exact List.mem_takeWhile_imp hc

theorem isDigit_of_isspace {c : Char} (h : isspace c = true) : c.isDigit = false := by
  simp only [isspace, List.mem_cons, List.not_mem_nil, or_false, decide_eq_true_eq] at h
  rcases h with rfl | rfl | rfl | rfl | rfl | rfl <;> rfl

/-- A digit behind white space begins the number, where there is only one. -/
theorem eq_of_digit_of_isspace {front ds rest u t : Str} {c d : Char}
    (hs : front ++ (ds ++ rest) = (u ++ [c]) ++ d :: t) (hc : isspace c = true)
    (hd : d.isDigit = true) (hfront : ∀ e ∈ front, e.isDigit = false)
    (hds : ∀ e ∈ ds, e.isDigit = true) (hrest : ∀ e ∈ rest, e.isDigit = false) :
    d :: t = ds ++ rest := by
  rcases List.append_eq_append_iff.mp hs with ⟨a, ha, hsplit⟩ | ⟨a, ha, hsplit⟩
  · rcases List.eq_nil_or_concat a with rfl | ⟨a, x, rfl⟩
    · exact hsplit.symm
    -- the white space would be among the digits
    obtain ⟨-, rfl⟩ : u = front ++ a ∧ c = x := by simpa [← List.append_assoc] using ha
    rcases List.append_eq_append_iff.mp hsplit with ⟨b, -, rfl⟩ | ⟨b, rfl, -⟩
    · exact absurd (hrest d (by simp)) (by simp [hd])
    · exact absurd (hds c (by simp)) (by simp [isDigit_of_isspace hc])
  · cases a with
    | nil => exact hsplit
    | cons x a =>
      obtain ⟨rfl, -⟩ := List.cons_eq_cons.mp hsplit
      exact absurd (hfront d (by simp [ha])) (by simp [hd])

/-- The number at the front of a text, zero without one; too large a number becomes the nearest
representable. -/
def frontNumber (s : Str) : Int := min (digitsValue (s.takeWhile Char.isDigit) : Int) (2 ^ 63 - 1)

/-- Extraction of a number where there is no sign. -/
theorem extractTime_of_unsigned {s : Str} (hs : Unsigned s) (old : Int) :
    extractTime s old =
      if s.dropWhile isspace = [] then old else frontNumber (s.dropWhile isspace) := by
  rw [extractTime]
  split
  · rfl
  · have hnum : numeral (s.dropWhile isspace) = (false,
        (s.dropWhile isspace).takeWhile Char.isDigit,
        (s.dropWhile isspace).dropWhile Char.isDigit) := by
      have hhead := hs.skip.1
      unfold numeral
      split
      · next heq => simp [heq] at hhead
      · next heq => simp [heq] at hhead
      · rfl
    simp [hnum, frontNumber]

end Filth.Base
