import Mathlib
import Filth.Base.Words
import Filth.Http.Names
import Filth.Http.Segmentation

/-!
# What the parser loses

At a carriage return that ends a chunk the parser goes back one character too few,
`src/HTTP_parsing.cpp:34–38`, so it loses the first character that it still had. Printed headers are
recognised all the same only if that never happens, or happens twice to an empty line, and what is
lost is the end of that line.
-/

namespace Filth

open Base

/-! ### Slots -/

/-- Where a line goes: to the request line, or to a header. -/
def place (l : Str) : Option (Option Header) :=
  if httpVersion <:+: l then some none else (Header.extract l).map fun p ↦ some p.1

namespace Hdrs

/-- What is in a place. -/
def slot (h : Hdrs) : Option Header → Str
  | none => h.reqln
  | some hd => h.hdr hd

variable {h g : Hdrs} {l : Str} {i : Option Header}

private theorem store_of_place_none (hp : place l = none) (g : Hdrs) : g.store l = g := by
  unfold place at hp
  split at hp
  · cases hp
  · next hversion =>
    rw [Option.map_eq_none_iff] at hp
    rw [store, if_neg hversion, hp]

private theorem slot_store (hp : place l = some i) (g : Hdrs) :
    (g.store l).slot = Function.update g.slot i l := by
  unfold place at hp
  unfold store
  split at hp
  · next hversion =>
    cases hp
    rw [if_pos hversion]
    funext i
    cases i <;> simp [slot]
  · next hversion =>
    obtain ⟨⟨hd, v⟩, hname, rfl⟩ := Option.map_eq_some_iff.mp hp
    rw [if_neg hversion, hname]
    funext i
    cases i with
    | none => rfl
    | some hd' => simp [slot, Function.update_apply]

end Hdrs

instance : Fintype Header := ⟨Header.all.toFinset, fun h ↦ by cases h <;> decide⟩

/-- What a line takes when it is printed; nothing is printed of an empty slot. -/
def printedLength (l : Str) : Nat := if l = [] then 0 else l.length + 2

private theorem printedLength_of_ne_nil {l : Str} (h : l ≠ []) :
    printedLength l = l.length + 2 := if_neg h

private theorem printedLength_le (l : Str) : printedLength l ≤ l.length + 2 := by
  unfold printedLength
  split <;> omega

namespace Hdrs

/-- What all slots take. -/
def weight (h : Hdrs) : Nat := ∑ i, printedLength (h.slot i)

theorem weight_empty : empty.weight = 0 := by
  refine Finset.sum_eq_zero fun i _ ↦ ?_
  cases i <;> rfl

/-- A line that is stored takes the place of another one. -/
theorem weight_store {l : Str} {i : Option Header} (hp : place l = some i) (g : Hdrs) :
    (g.store l).weight + printedLength (g.slot i) = g.weight + printedLength l := by
  have hcomp : (fun j ↦ printedLength (Function.update g.slot i l j)) =
      Function.update (fun j ↦ printedLength (g.slot j)) i (printedLength l) := by
    funext j
    rw [Function.update_apply, Function.update_apply]
    split <;> rfl
  have hsplit := Finset.add_sum_erase Finset.univ (fun j ↦ printedLength (g.slot j))
    (Finset.mem_univ i)
  unfold weight
  rw [slot_store hp, hcomp, Finset.sum_update_of_mem (Finset.mem_univ i),
    Finset.sdiff_singleton_eq_erase, ← hsplit]
  omega

private theorem weight_store_le (g : Hdrs) (l : Str) : (g.store l).weight ≤ g.weight +
    (l.length + 2) := by
  have hle := printedLength_le l
  cases hp : place l with
  | none =>
    rw [store_of_place_none hp]
    omega
  | some i =>
    have := weight_store hp g
    omega

private theorem length_block (lines : List Str) :
    (block lines).length = (lines.map fun l ↦ l.length + 2).sum + 2 := by
  simp [block, crlf, List.length_flatMap]

/-- The printed headers are as long as the slots take, and an empty line. -/
theorem length_print (h : Hdrs) : h.print.length = h.weight + 2 := by
  have hlines (ls : List Str) : ((ls.filter (· ≠ [])).map fun l ↦ l.length + 2).sum =
      (ls.map printedLength).sum := by
    induction ls with
    | nil => rfl
    | cons l ls ih =>
      by_cases hl : l = []
      · rw [List.filter_cons_of_neg (by simpa using hl), ih, hl]
        simp [printedLength]
      · rw [List.filter_cons_of_pos (by simpa using hl), List.map_cons, List.sum_cons, ih,
          List.map_cons, List.sum_cons, printedLength_of_ne_nil hl]
  have hsum : (Header.all.map fun hd ↦ printedLength (h.hdr hd)).sum =
      ∑ hd, printedLength (h.hdr hd) := by
    rw [← List.sum_toFinset _ (by decide)]
    rfl
  have hslots : ((h.reqln :: Header.all.reverse.map h.hdr).map printedLength).sum =
      printedLength h.reqln + (Header.all.map fun hd ↦ printedLength (h.hdr hd)).sum := by
    rw [List.map_cons, List.sum_cons, List.map_map, List.map_reverse, List.sum_reverse]
    rfl
  have hweight : h.weight = printedLength h.reqln + ∑ hd, printedLength (h.hdr hd) := by
    rw [weight, Fintype.sum_option]
    rfl
  rw [print_eq_block, length_block, lines, hlines, hslots, hsum, hweight]

end Hdrs

/-! ### A line that has lost its front -/

/-- Trimming undoes padding. -/
theorem trim_append_append {a b n : Str} (ha : ∀ c ∈ a, isspace c = true)
    (hn : ∀ c ∈ n, isspace c = false) (hb : ∀ c ∈ b, isspace c = true) :
    trim (a ++ (n ++ b)) = n := by
  cases n with
  | nil =>
    rw [trim_eq_nil_iff, List.nil_append]
    exact fun c hc ↦ (List.mem_append.mp hc).elim (ha c) (hb c)
  | cons c n =>
    have hfront : (c :: n ++ b).dropWhile isspace = c :: n ++ b := by
      rw [List.cons_append, List.dropWhile_cons, hn c List.mem_cons_self]
      rfl
    have hback : trim (c :: n) = c :: n := trim_eq_self hn
    have hself : (c :: n).dropWhile isspace = c :: n := by
      rw [List.dropWhile_cons, hn c List.mem_cons_self]
      rfl
    rw [trim, hself] at hback
    rw [trim, List.dropWhile_append_of_pos ha, hfront, List.reverse_append,
      List.dropWhile_append_of_pos fun d hd ↦ hb d (List.mem_reverse.mp hd), hback]

/-- No header has a name that another one ends with after its first or its second letter. -/
theorem Header.drop_str_ne (h g : Header) : h.str.drop 1 ≠ g.str ∧ h.str.drop 2 ≠ g.str := by
  have hall : ∀ h g : Header, h.str.drop 1 ≠ g.str ∧ h.str.drop 2 ≠ g.str := by decide +kernel
  exact hall h g

private theorem Header.two_le_length_str (h : Header) : 2 ≤ h.str.length := by cases h <;> decide

/-- A name in the table has no white space. -/
private theorem Header.isspace_str {h : Header} {c : Char} (hc : c ∈ h.str) :
    isspace c = false := by
  apply Bool.eq_false_of_not_eq_true
  intro hspace
  simp only [isspace, List.mem_cons, List.not_mem_nil, or_false, decide_eq_true_eq] at hspace
  rcases hspace with rfl | rfl | rfl | rfl | rfl | rfl <;> exact absurd (mem_str hc) (by decide)

/-- Of a line that names a header, what is left without its first `j` characters still has all of
the name, or has lost some of it. -/
theorem nameOf_drop {l : Str} {hd : Header}
    (hname : ((nameOf l).map fun c ↦ if c = '-' then '_' else c) = hd.str) (hcolon : ':' ∈ l)
    {j : Nat} (hj : j ≤ 2) : ∃ k ≤ j, nameOf (l.drop j) = (nameOf l).drop k := by
  obtain ⟨before, v, rfl, hbefore⟩ := List.eq_append_cons_of_mem hcolon
  have htake : nameOf (before ++ ':' :: v) = trim before := by
    rw [nameOf, takeWhile_ne_append hbefore]
  rw [htake] at hname ⊢
  obtain ⟨a, b, hpad, ha, hb⟩ := exists_trim before
  have hlong : 2 ≤ (trim before).length := by
    rw [← List.length_map, hname]
    exact hd.two_le_length_str
  have hblank : ∀ c ∈ trim before, isspace c = false := by
    intro c hc
    rw [← isspace_underscored]
    refine Header.isspace_str (h := hd) ?_
    rw [← hname]
    exact List.mem_map_of_mem hc
  have hle : j ≤ before.length := by
    have := congrArg List.length hpad
    simp only [List.length_append] at this
    omega
  have hdrop : nameOf ((before ++ ':' :: v).drop j) = trim (before.drop j) := by
    rw [List.drop_append_of_le_length hle, nameOf, takeWhile_ne_append]
    exact fun hmem ↦ hbefore (List.mem_of_mem_drop hmem)
  rw [hdrop]
  by_cases hpast : j ≤ a.length
  · refine ⟨0, Nat.zero_le j, ?_⟩
    conv_lhs => rw [hpad]
    rw [List.drop_append_of_le_length hpast, List.drop_zero]
    exact trim_append_append (fun c hc ↦ ha c (List.mem_of_mem_drop hc)) hblank hb
  · refine ⟨j - a.length, Nat.sub_le j _, ?_⟩
    conv_lhs => rw [hpad]
    rw [List.drop_append, List.drop_eq_nil_of_le (by omega),
      List.drop_append_of_le_length (by omega)]
    exact trim_append_append (by simp) (fun c hc ↦ hblank c (List.mem_of_mem_drop hc)) hb

/-- What is left of the version without its first or its second letter is in no name. -/
private theorem extract_of_version {hd : Header} {v b : Str} {k : Nat} (hpos : 0 < k) (hk : k ≤ 2) :
    Header.extract (httpVersion.drop k ++ b) ≠ some (hd, v) := by
  intro hname
  obtain ⟨-, hstr⟩ := Header.extract_iff.mp ⟨v, hname⟩
  have hfront : ∀ c ∈ httpVersion.drop k, decide (c ≠ ':') = true := by
    intro c hc
    have hcolon : ':' ∉ httpVersion := by decide
    rw [decide_eq_true_eq]
    rintro rfl
    exact hcolon (List.mem_of_mem_drop hc)
  have hslash : '/' ∈ httpVersion.drop k := by
    rcases (by omega : k = 1 ∨ k = 2) with rfl | rfl <;> decide
  have hmem : '/' ∈ nameOf (httpVersion.drop k ++ b) := by
    obtain ⟨p, q, hpad, hp, hq⟩ := exists_trim
      ((httpVersion.drop k ++ b).takeWhile fun c ↦ decide (c ≠ ':'))
    have hin : '/' ∈ (httpVersion.drop k ++ b).takeWhile fun c ↦ decide (c ≠ ':') := by
      rw [List.takeWhile_append_of_pos hfront]
      exact List.mem_append_left _ hslash
    rw [hpad] at hin
    rcases List.mem_append.mp hin with hmem | hin
    · exact absurd (hp _ hmem) (by decide)
    · rcases List.mem_append.mp hin with hmem | hmem
      · exact hmem
      · exact absurd (hq _ hmem) (by decide)
  have hmem' : '/' ∈ hd.str := by
    rw [← hstr]
    exact List.mem_map.mpr ⟨'/', hmem, if_neg (by decide)⟩
  exact absurd (Header.mem_str hmem') (by decide)

/-- A line that has lost one or two characters does not go anywhere else. -/
private theorem place_drop {l : Str} {i i' : Option Header} {j : Nat} (hj : j ≤ 2)
    (hp : place l = some i)
    (hp' : place (l.drop j) = some i') : i' = i := by
  unfold place at hp hp'
  split at hp
  · next hversion =>
    cases hp
    split at hp'
    · cases hp'
      rfl
    · next hlost =>
      obtain ⟨⟨hd, v⟩, hname, -⟩ := Option.map_eq_some_iff.mp hp'
      obtain ⟨a, b, rfl⟩ := hversion
      have hshort : a.length < j := by
        by_contra hlong
        refine hlost ⟨a.drop j, b, ?_⟩
        rw [List.append_assoc, List.append_assoc,
          List.drop_append_of_le_length (Nat.le_of_not_lt hlong)]
      have hdrop : (a ++ httpVersion ++ b).drop j = httpVersion.drop (j - a.length) ++ b := by
        have hlen : httpVersion.length = 8 := by decide
        rw [List.append_assoc, List.drop_append, List.drop_eq_nil_of_le (by omega),
          List.nil_append, List.drop_append_of_le_length (by omega)]
      rw [hdrop] at hname
      exact absurd hname (extract_of_version (by omega) (by omega))
  · next hversion =>
    obtain ⟨⟨hd, v⟩, hname, rfl⟩ := Option.map_eq_some_iff.mp hp
    rw [if_neg fun hin ↦ hversion (hin.trans (List.drop_suffix j l).isInfix)] at hp'
    obtain ⟨⟨hd', v'⟩, hname', rfl⟩ := Option.map_eq_some_iff.mp hp'
    obtain ⟨hcolon, hstr⟩ := Header.extract_iff.mp ⟨v, hname⟩
    obtain ⟨-, hstr'⟩ := Header.extract_iff.mp ⟨v', hname'⟩
    obtain ⟨k, hk, hdrop⟩ := nameOf_drop hstr hcolon hj
    rw [hdrop, List.map_drop, hstr] at hstr'
    rcases (by omega : k = 0 ∨ k = 1 ∨ k = 2) with rfl | rfl | rfl
    · have hfind := Header.find_str hd'
      rw [← hstr', List.drop_zero, Header.find_str] at hfind
      cases hfind
      rfl
    · exact absurd hstr' (hd.drop_str_ne hd').1
    · exact absurd hstr' (hd.drop_str_ne hd').2

/-! ### What a call of the parser keeps -/

section Kept

variable (i : Option Header)

/-- What the line in a slot takes, if there is another one later. -/
def forgotten (h h' : Hdrs) : Nat := if h'.slot i = h.slot i then 0 else printedLength (h.slot i)

private theorem forgotten_le_add (h h₁ h' : Hdrs) :
    forgotten i h h' ≤ forgotten i h h₁ + forgotten i h₁ h' := by
  unfold forgotten
  by_cases hone : h₁.slot i = h.slot i
  · rw [if_pos hone, hone, Nat.zero_add]
  · rw [if_neg hone]
    split <;> omega

private theorem Hdrs.weight_store_add_le (h : Hdrs) (l : Str) :
    (h.store l).weight + forgotten i h (h.store l) ≤ h.weight + (l.length + 2) := by
  cases hp : place l with
  | none =>
    rw [store_of_place_none hp, forgotten, if_pos rfl]
    omega
  | some j =>
    have hweight := weight_store hp h
    have hle := printedLength_le l
    have hforgot : forgotten i h (h.store l) ≤ printedLength (h.slot j) := by
      unfold forgotten
      rw [slot_store hp, Function.update_apply]
      by_cases hij : i = j
      · rw [if_pos hij, hij]
        split <;> omega
      · rw [if_neg hij, if_pos rfl]
        exact Nat.zero_le _
    omega

/-- Headers that are kept, and text that is left, take no more than there was, without what has been
forgotten and without the empty line that ends the block. -/
theorem scan_weight (h : Hdrs) (t : Str) :
    (scan h t).state.weight + (scan h t).rest.length + (if (scan h t).isDone then 2 else 0) +
      forgotten i h (scan h t).state ≤ h.weight + t.length := by
  induction t using text_induction generalizing h with
  | piece l hl =>
    rw [scan_piece h hl]
    simp [Outcome.state, Outcome.rest, Outcome.isDone, forgotten]
  | empty rest =>
    rw [scan_empty]
    simp only [Outcome.state, Outcome.rest, Outcome.isDone, forgotten, if_true, List.length_cons]
    omega
  | line l rest hl hne ih =>
    rw [scan_line h hl hne]
    have hstore := h.weight_store_add_le i l
    have htriangle := forgotten_le_add i h (h.store l) (scan (h.store l) rest).state
    have := ih (h.store l)
    simp only [List.length_append, List.length_cons]
    omega
  | broken l after hl ha =>
    rw [scan_broken h hl ha]
    simp only [Outcome.state, Outcome.rest, Outcome.isDone, forgotten, if_true, List.length_drop,
      Bool.false_eq_true, if_false]
    omega

/-- The same of calls that follow each other, when the last one finds the end of the block. -/
theorem feed_weight {h h' : Hdrs} {t rest : Str} {cs : List Str}
    (hfeed : feed scan h t cs = .done h' rest) :
    h'.weight + rest.length + 2 + forgotten i h h' ≤ h.weight + t.length + cs.flatten.length := by
  induction cs generalizing h t with
  | nil => cases hfeed
  | cons c cs ih =>
    have hcall := scan_weight i h (t ++ c)
    rw [feed] at hfeed
    rw [List.flatten_cons, List.length_append]
    rw [List.length_append] at hcall
    cases hscan : scan h (t ++ c) with
    | done h₁ t₁ =>
      rw [hscan] at hfeed hcall
      cases hfeed
      simp only [Outcome.state, Outcome.rest, Outcome.isDone, if_true] at hcall
      rw [List.length_append]
      omega
    | more h₁ t₁ =>
      rw [hscan] at hfeed hcall
      have := ih hfeed
      have htriangle := forgotten_le_add i h h₁ h'
      simp only [Outcome.state, Outcome.rest, Outcome.isDone, Bool.false_eq_true, if_false] at hcall
      omega

end Kept

/-! ### Pieces of a printed block -/

section Pieces

variable {lines : List Str}

/-- The scanner stores lines that are terminated. -/
theorem scan_lines (hlines : ∀ l ∈ lines, l ≠ [] ∧ '\r' ∉ l) (h : Hdrs) (t : Str) :
    scan h (lines.flatMap (· ++ crlf) ++ t) = scan (lines.foldl Hdrs.store h) t := by
  induction lines generalizing h with
  | nil => rfl
  | cons l lines ih =>
    obtain ⟨hne, hl⟩ := hlines l List.mem_cons_self
    have hcons : (l :: lines).flatMap (· ++ crlf) ++ t =
        l ++ '\r' :: '\n' :: (lines.flatMap (· ++ crlf) ++ t) := by simp [crlf]
    rw [hcons, scan_line h hl hne, ih fun l' hl' ↦ hlines l' (List.mem_cons_of_mem l hl')]
    rfl

/-- Text that may not end a chunk, and that goes on with a block, ends on the carriage return of one
of its lines. -/
theorem cut_of_not_whole (hlines : ∀ l ∈ lines, l ≠ [] ∧ '\r' ∉ l) {t d rest : Str}
    (ht : t ++ d = block lines ++ rest) (hnot : ¬ Whole t) :
    ∃ front l, front ++ [l] <+: lines ++ [[]] ∧ t = front.flatMap (· ++ crlf) ++ (l ++ ['\r']) := by
  induction lines generalizing t with
  | nil =>
    refine ⟨[], [], List.prefix_rfl, ?_⟩
    cases t with
    | nil => exact absurd (.piece [] List.not_mem_nil) hnot
    | cons c t =>
      obtain ⟨rfl, hlf⟩ := List.cons_eq_cons.mp ht
      cases t with
      | nil => rfl
      | cons c t =>
        obtain ⟨rfl, -⟩ := List.cons_eq_cons.mp hlf
        exact absurd (.empty t) hnot
  | cons l lines ih =>
    obtain ⟨hne, hl⟩ := hlines l List.mem_cons_self
    rw [block_cons] at ht
    rcases List.append_eq_append_iff.mp ht with ⟨a, rfl, -⟩ | ⟨t', rfl, ht'⟩
    · exact absurd (.piece t fun hmem ↦ hl (List.mem_append_left a hmem)) hnot
    · cases t' with
      | nil =>
        rw [List.append_nil] at hnot
        exact absurd (.piece l hl) hnot
      | cons c t' =>
        obtain ⟨rfl, hlf⟩ := List.cons_eq_cons.mp ht'
        cases t' with
        | nil => exact ⟨[], l, List.cons_prefix_cons.mpr ⟨rfl, List.nil_prefix⟩, rfl⟩
        | cons c t' =>
          obtain ⟨rfl, hrest⟩ := List.cons_eq_cons.mp hlf
          obtain ⟨front, l', hfront, rfl⟩ := ih (fun x hx ↦ hlines x (List.mem_cons_of_mem l hx))
            hrest.symm fun hw ↦ hnot (.line l _ hl hne hw)
          refine ⟨l :: front, l', List.cons_prefix_cons.mpr ⟨rfl, hfront⟩, ?_⟩
          simp [crlf]

/-- A list with a property that the empty one has, all its beginnings included; or the first
beginning without it. -/
theorem forall_prefix_or {α : Type} {P : List α → Prop} (hnil : P []) (cs : List α) :
    (∀ p, p <+: cs → P p) ∨
      ∃ q c post, cs = q ++ c :: post ∧ (∀ p, p <+: q → P p) ∧ ¬ P (q ++ [c]) := by
  induction cs using List.reverseRecOn with
  | nil =>
    left
    intro p hp
    rwa [List.prefix_nil.mp hp]
  | append_singleton cs c ih =>
    rcases ih with hall | ⟨q, d, post, rfl, hq, hnot⟩
    · by_cases hlast : P (cs ++ [c])
      · left
        intro p hp
        rcases List.prefix_concat_iff.mp hp with rfl | hp
        · exact hlast
        · exact hall p hp
      · exact .inr ⟨cs, c, [], rfl, hall, hlast⟩
    · exact .inr ⟨q, d, post ++ [c], by simp, hq, hnot⟩

end Pieces

/-! ### A cut within a line -/

private theorem three_le_length_of_place {l : Str} {i : Option Header} (hp : place l = some i) :
    3 ≤ l.length := by
  unfold place at hp
  split at hp
  · next hversion =>
    have hlen : httpVersion.length = 8 := by decide
    have := hversion.length_le
    omega
  · obtain ⟨⟨hd, v⟩, hname, -⟩ := Option.map_eq_some_iff.mp hp
    obtain ⟨hcolon, hstr⟩ := Header.extract_iff.mp ⟨v, hname⟩
    have hlong := hd.two_le_length_str
    rw [← hstr, List.length_map, nameOf] at hlong
    have hlt := length_takeWhile_ne_lt_iff.mpr hcolon
    obtain ⟨a, b, hpad, -, -⟩ := exists_trim (l.takeWhile fun c ↦ decide (c ≠ ':'))
    have := congrArg List.length hpad
    simp only [List.length_append] at this
    omega

/-- Printed lines are lines of slots. -/
private theorem Hdrs.Slotted.exists_slot {P : Str → Prop} {h : Hdrs} (hs : h.Slotted P) {l : Str}
    (hl : l ∈ h.lines) : ∃ i, place l = some i ∧ h.slot i = l := by
  obtain ⟨hl, hne⟩ := List.mem_filter.mp hl
  have hne : l ≠ [] := by simpa using hne
  rcases List.mem_cons.mp hl with rfl | hl
  · exact ⟨none, if_pos (hs.reqln.resolve_left hne).2, rfl⟩
  · obtain ⟨hd, -, rfl⟩ := List.mem_map.mp hl
    obtain ⟨-, hversion, v, hname⟩ := (hs.hdr hd).resolve_left hne
    exact ⟨some hd, by rw [place, if_neg hversion, hname]; rfl, rfl⟩

/-- What is stored of a line that has lost characters is not what was printed. -/
private theorem feed_ne_done_of_lost {h hdrs : Hdrs} {l early after d : Str} {i : Option Header}
    (hp : place l = some i) (hl : '\r' ∉ l) (hslot : hdrs.slot i = l) {post : List Str}
    (hpost : post.flatten ++ d = '\n' :: after) {j : Nat} (hpos : 1 ≤ j) (hj : j ≤ 2)
    (hbudget : h.weight + (l.drop j ++ ['\r']).length + post.flatten.length + j ≤
      hdrs.weight + early.length + 4) :
    feed scan h (l.drop j ++ ['\r']) post ≠ .done hdrs early := by
  have hlong := three_le_length_of_place hp
  have hlost (k : Nat) : '\r' ∉ l.drop k := fun hmem ↦ hl (List.mem_of_mem_drop hmem)
  have hlen (k : Nat) : (l.drop k).length = l.length - k := List.length_drop
  have hne {k : Nat} (hk : k ≤ 2) : l.drop k ≠ [] := by
    intro hnil
    have := hlen k
    rw [hnil, List.length_nil] at this
    omega
  induction post generalizing j with
  | nil => exact nofun
  | cons c post ih =>
    intro hfeed
    rw [List.length_append, List.length_singleton, hlen] at hbudget
    cases c with
    | nil =>
      -- the parser is called without more text, and loses another character
      have hcall : feed scan h (l.drop j ++ ['\r']) ([] :: post) =
          feed scan h (l.drop (j + 1) ++ ['\r']) post := by
        have hshort := hlen j
        rw [feed, List.append_nil, scan_broken h (hlost j) (by simp),
          List.drop_append_of_le_length (by omega), List.drop_drop]
      rw [hcall] at hfeed
      rw [List.flatten_cons, List.nil_append] at hbudget
      by_cases hone : j = 1
      · subst hone
        refine ih hpost (by decide) le_rfl ?_ hfeed
        rw [List.length_append, List.length_singleton, hlen]
        omega
      · have hkept := feed_weight i hfeed
        rw [List.length_append, List.length_singleton, hlen] at hkept
        omega
    | cons c c' =>
      obtain ⟨rfl, -⟩ := List.cons_eq_cons.mp hpost
      have hcall : feed scan h (l.drop j ++ ['\r']) (('\n' :: c') :: post) =
          feed scan (h.store (l.drop j)) [] (c' :: post) := by
        rw [feed, feed, List.nil_append, List.append_assoc, List.singleton_append,
          scan_line h (hlost j) (hne hj)]
      rw [hcall] at hfeed
      rw [List.flatten_cons, List.length_append, List.length_cons] at hbudget
      have hkept := feed_weight i hfeed
      rw [List.flatten_cons, List.length_append, List.length_nil] at hkept
      cases hp' : place (l.drop j) with
      | none =>
        rw [Hdrs.store_of_place_none hp'] at hkept
        omega
      | some i' =>
        obtain rfl := place_drop hj hp hp'
        have hstore := h.weight_store_le (l.drop j)
        have hforgot : forgotten i' (h.store (l.drop j)) hdrs = l.length - j + 2 := by
          rw [forgotten, Hdrs.slot_store hp', Function.update_self, hslot, if_neg,
            printedLength_of_ne_nil (hne hj), hlen]
          intro heq
          have := hlen j
          rw [← heq] at this
          omega
        rw [hlen] at hstore
        omega

/-! ### A cut within the empty line -/

/-- Pieces without a carriage return are kept. -/
theorem feed_piece {cs : List Str} {h : Hdrs} {t : Str} (hcr : '\r' ∉ t ++ cs.flatten) :
    feed scan h t cs = .more h (t ++ cs.flatten) := by
  induction cs generalizing t with
  | nil => simp [feed]
  | cons c cs ih =>
    rw [List.flatten_cons, ← List.append_assoc] at hcr ⊢
    have hfront : '\r' ∉ t ++ c := fun hmem ↦ hcr (List.mem_append_left _ hmem)
    rw [feed, scan_piece h hfront]
    exact ih hcr

/-- A carriage return at the end is lost if nothing stands before it. -/
theorem scan_cr (h : Hdrs) : scan h ['\r'] = .more h [] := by
  have hcut := @scan_broken h [] [] List.not_mem_nil (by simp)
  exact hcut

/-- Otherwise it is kept, and a line feed before it is lost. -/
theorem scan_lf_cr (h : Hdrs) {after : Str} (ha : after.head? ≠ some '\n') :
    scan h ('\n' :: '\r' :: after) = .more h ('\r' :: after) := by
  have hcut := @scan_broken h ['\n'] after (by decide) ha
  exact hcut

/-- A line that is just a line feed is ignored. -/
private theorem scan_lf_line (h : Hdrs) (rest : Str) :
    scan h ('\n' :: '\r' :: '\n' :: rest) = scan h rest := by
  have hstore := @scan_line h ['\n'] rest (by decide) (by decide)
  rwa [Hdrs.store_of_place_none (by decide)] at hstore

private theorem overlong_lf_cr_iff {max : Limit} :
    Overlong max ['\n', '\r'] ↔ max.exceeded 1 = true := by
  have hcut := @overlong_broken max ['\n'] [] (by decide) (by simp)
  exact hcut

/-- After such a line there have to be enough bytes for what is left, and two more. -/
private theorem length_of_feed_lf_line {hdrs : Hdrs} {t early : Str} {more : List Str}
    (hfeed : feed scan hdrs [] (('\n' :: '\r' :: '\n' :: t) :: more) = .done hdrs early) :
    early.length + 2 ≤ t.length + more.flatten.length := by
  have hline : scan hdrs ('\n' :: '\r' :: '\n' :: t) = scan hdrs ([] ++ t) := scan_lf_line hdrs t
  rw [feed, List.nil_append, hline, ← feed] at hfeed
  have hkept := feed_weight none hfeed
  rw [List.flatten_cons, List.length_append, List.length_nil] at hkept
  omega

private theorem ne_of_prefix_concat {α : Type} {p q r : List α} {x : α} (hp : p <+: q)
    (hq : q ++ [x] <+: r) : p ≠ r := by
  rintro rfl
  have := (hq.trans hp).length_le
  rw [List.length_append, List.length_singleton] at this
  omega

/-- The pieces end on the carriage return of the empty line, for the first time on any, and then on
the next carriage return, which is the next but one character. -/
structure Cut (hdrs : Hdrs) (pre mid : List Str) : Prop where
  empty : pre.flatten ++ ['\n'] = hdrs.print
  whole : ∀ p, p <+: pre → p ≠ pre → Whole p.flatten
  next : mid.flatten = ['\n', '\r']
  late : ∀ p, p <+: mid → p ≠ mid → '\r' ∉ p.flatten

/-- What happens to the line feed of the empty line when its carriage return has been lost: it is
lost as well, with the carriage return that follows it. -/
theorem cut_of_feed {hdrs : Hdrs} {early s after d : Str} {post : List Str}
    (hpost : post.flatten ++ d = '\n' :: (s ++ after)) (hs : s <+: crlf)
    (hbudget : hdrs.weight + post.flatten.length + 1 ≤ hdrs.weight + early.length + 2 + s.length)
    (hfeed : feed scan hdrs [] post = .done hdrs early) : s = crlf ∧ ∃ mid e more,
      post = mid ++ ('\n' :: e) :: more ∧ mid.flatten = ['\n', '\r'] ∧
        ∀ p, p <+: mid → p ≠ mid → '\r' ∉ p.flatten := by
  rcases forall_prefix_or (P := fun p : List Str ↦ '\r' ∉ p.flatten) List.not_mem_nil post with
    hall | ⟨q, c, more, rfl, hq, hcr⟩
  · rw [feed_piece (hall post List.prefix_rfl)] at hfeed
    cases hfeed
  · obtain ⟨t, ht⟩ : ∃ t, t = q.flatten ++ c := ⟨_, rfl⟩
    have hmem : '\r' ∈ t := by simpa [ht] using not_not.mp hcr
    have hcut : (q ++ c :: more).flatten = t ++ more.flatten := by simp [ht]
    have hgo : feed scan hdrs [] (q ++ c :: more) = feed scan hdrs [] (t :: more) := by
      rw [feed_append_of_more scan (feed_piece (hq q List.prefix_rfl)), feed, feed, ht]
      rfl
    rw [hcut, List.append_assoc] at hpost
    rw [hcut, List.length_append] at hbudget
    rw [hgo] at hfeed
    have hkept := feed_weight none hfeed
    rw [List.flatten_cons, List.length_append, List.length_nil] at hkept
    -- the text begins with the line feed and a carriage return
    obtain ⟨x, t₁, rfl⟩ := List.exists_cons_of_ne_nil (List.ne_nil_of_mem hmem)
    obtain ⟨rfl, hnext⟩ := List.cons_eq_cons.mp hpost
    have hmem₁ : '\r' ∈ t₁ := by simpa using hmem
    obtain ⟨x, t₂, rfl⟩ := List.exists_cons_of_ne_nil (List.ne_nil_of_mem hmem₁)
    cases s with
    | nil =>
      rw [List.length_nil] at hbudget
      omega
    | cons y s =>
      obtain ⟨rfl, hs₁⟩ := List.cons_prefix_cons.mp hs
      obtain ⟨rfl, hrest⟩ := List.cons_eq_cons.mp hnext
      simp only [List.length_cons] at hbudget hkept
      by_cases hlf : t₂.head? = some '\n'
      · -- the line feed makes a line, which is ignored
        obtain ⟨t₃, rfl⟩ : ∃ t₃, t₂ = '\n' :: t₃ := by
          cases t₂ with
          | nil => cases hlf
          | cons x t₃ => exact ⟨t₃, by cases hlf; rfl⟩
        have hleft := length_of_feed_lf_line hfeed
        rw [List.length_cons] at hbudget
        have hle := hs₁.length_le
        simp only [List.length_singleton] at hle
        omega
      · -- the line feed is lost
        rw [feed, List.nil_append, scan_lf_cr hdrs hlf] at hfeed
        dsimp only at hfeed
        have hkept := feed_weight none hfeed
        rw [List.length_cons] at hkept
        cases s with
        | nil =>
          rw [List.length_nil] at hbudget
          omega
        | cons y s =>
          obtain ⟨rfl, hs₂⟩ := List.cons_prefix_cons.mp hs₁
          obtain rfl := List.prefix_nil.mp hs₂
          obtain rfl : t₂ = [] := by
            cases t₂ with
            | nil => rfl
            | cons x t₃ =>
              obtain ⟨rfl, -⟩ := List.cons_eq_cons.mp hrest
              exact absurd rfl hlf
          simp only [List.length_cons, List.length_nil] at hbudget
          cases more with
          | nil => cases hfeed
          | cons c' more =>
            cases c' with
            | nil =>
              -- called without more text, the parser loses the carriage return as well
              rw [feed, List.append_nil, scan_cr] at hfeed
              have hkept := feed_weight none hfeed
              rw [List.length_nil] at hkept
              rw [List.flatten_cons, List.nil_append] at hbudget
              omega
            | cons z e =>
              obtain ⟨rfl, -⟩ := List.cons_eq_cons.mp hrest
              refine ⟨rfl, q ++ [c], e, more, by simp, by simpa using ht.symm, ?_⟩
              intro p hp hne
              rcases List.prefix_concat_iff.mp hp with rfl | hp
              · exact absurd rfl hne
              · exact hq p hp

private theorem Hdrs.weight_foldl_le (lines : List Str) (h : Hdrs) :
    (lines.foldl Hdrs.store h).weight ≤ h.weight + (lines.flatMap (· ++ crlf)).length := by
  induction lines generalizing h with
  | nil => exact Nat.le_add_right _ _
  | cons l lines ih =>
    have hone := h.weight_store_le l
    have hrest := ih (h.store l)
    have hlen : ((l :: lines).flatMap (· ++ crlf)).length =
        l.length + 2 + (lines.flatMap (· ++ crlf)).length := by
      rw [List.flatMap_cons, List.length_append, List.length_append]
      rfl
    rw [List.foldl_cons, hlen]
    omega

/-- Headers that are read as they were printed, from pieces of what was printed and of as much of
an empty line as the parser may lose: either the text is whole after each of the pieces, or all of
the empty line is lost. -/
theorem whole_or_cut {P : Str → Prop} {hdrs : Hdrs} (hslots : hdrs.Slotted P)
    (hP : ∀ l, P l → '\r' ∉ l) {cs : List Str} {d s after early : Str}
    (hwire : cs.flatten ++ d = hdrs.print ++ (s ++ after)) (hs : s <+: crlf)
    (hlen : cs.flatten.length ≤ hdrs.print.length + early.length + s.length)
    (hfeed : feed scan .empty [] cs = .done hdrs early) : (∀ p, p <+: cs → Whole p.flatten) ∨
      s = crlf ∧ ∃ pre mid e more, cs = pre ++ mid ++ ('\n' :: e) :: more ∧ Cut hdrs pre mid := by
  rcases forall_prefix_or (P := fun p : List Str ↦ Whole p.flatten) (.piece [] List.not_mem_nil) cs
    with hall | ⟨q, c, post, rfl, hq, hnot⟩
  · exact .inl hall
  right
  have hlines : ∀ l ∈ hdrs.lines, l ≠ [] ∧ '\r' ∉ l := fun l hl ↦
    ⟨(hslots.forall_lines l hl).1, hP l (hslots.forall_lines l hl).2⟩
  obtain ⟨t, ht⟩ : ∃ t, t = (q ++ [c]).flatten := ⟨_, rfl⟩
  have hsplit : (q ++ c :: post).flatten = t ++ post.flatten := by simp [ht]
  rw [hsplit, List.append_assoc] at hwire
  rw [hsplit, List.length_append, hdrs.length_print] at hlen
  rw [← ht] at hnot
  obtain ⟨front, l, hfront, hcut⟩ := cut_of_not_whole hlines hwire hnot
  have hfronts : ∀ x ∈ front, x ≠ [] ∧ '\r' ∉ x := by
    have hpre : front <+: hdrs.lines := by
      rcases List.prefix_concat_iff.mp hfront with hlast | hin
      · rw [(List.append_inj' hlast rfl).1]
      · exact (List.prefix_append _ _).trans hin
    exact fun x hx ↦ hlines x (hpre.subset hx)
  -- what the parser has when it is called for the first time after such a cut
  obtain ⟨h, hh⟩ : ∃ h, h = front.foldl Hdrs.store .empty := ⟨_, rfl⟩
  have hmore (hl : '\r' ∉ l) : feed scan h ((l ++ ['\r']).drop 1) post = .done hdrs early := by
    have hone : feed scan .empty [] (q ++ [c]) = .more h ((l ++ ['\r']).drop 1) := by
      have hlast : q.flatten ++ c = t := by simp [ht]
      rw [feed_of_whole .empty hq, hlast, hcut, scan_lines hfronts, ← hh,
        scan_broken h hl (by simp)]
    rw [← feed_append_of_more scan hone]
    simpa using hfeed
  have hweight : h.weight + (l.length + 1) ≤ t.length := by
    have hle := Hdrs.weight_foldl_le front .empty
    rw [← hh, Hdrs.weight_empty, Nat.zero_add] at hle
    rw [hcut, List.length_append, List.length_append]
    exact Nat.add_le_add_right hle _
  rcases List.prefix_concat_iff.mp hfront with hlast | hin
  · -- within the empty line
    obtain ⟨rfl, hempty⟩ := List.append_inj' hlast rfl
    cases hempty
    rw [hslots.foldl_lines] at hh
    subst hh
    have hprint : t ++ ['\n'] = h.print := by
      rw [hcut, h.print_eq_block]
      simp [block, crlf]
    rw [← hprint, List.append_assoc, List.append_cancel_left_eq] at hwire
    have hplen := congrArg List.length hprint
    rw [List.length_append, List.length_singleton, h.length_print] at hplen
    have hpost : post.flatten ++ d = '\n' :: (s ++ after) := hwire
    obtain ⟨hall, mid, e, more, rfl, hnext, hlate⟩ := cut_of_feed hpost hs (by omega)
      (hmore List.not_mem_nil)
    refine ⟨hall, q ++ [c], mid, e, more, by simp, by rw [← ht, hprint], ?_, hnext, hlate⟩
    intro p hp hne
    rcases List.prefix_concat_iff.mp hp with rfl | hp
    · exact absurd rfl hne
    · exact hq p hp
  · -- within a line
    obtain ⟨rest, hrest⟩ := hin
    have hmem : l ∈ hdrs.lines := by
      rw [← hrest]
      simp
    obtain ⟨i, hp, hslot⟩ := hslots.exists_slot hmem
    have hl := (hlines l hmem).2
    have hgo : hdrs.print ++ (s ++ after) = t ++ ('\n' :: (block rest ++ (s ++ after))) := by
      rw [hdrs.print_eq_block, ← hrest, hcut]
      simp [block, crlf]
    rw [hgo, List.append_cancel_left_eq] at hwire
    have hle := hs.length_le
    have hcrlf : crlf.length = 2 := by decide
    have hlong := three_le_length_of_place hp
    have hdrop : (l ++ ['\r']).drop 1 = l.drop 1 ++ ['\r'] :=
      List.drop_append_of_le_length (by omega)
    have hfeed' := hmore hl
    rw [hdrop] at hfeed'
    refine absurd hfeed' (feed_ne_done_of_lost hp hl hslot hwire le_rfl (by decide) ?_)
    rw [List.length_append, List.length_singleton, List.length_drop]
    omega

/-! ### Lines that are not too long -/

/-- A line that is too long stays so. -/
theorem Overlong.append {max : Limit} {t : Str} (h : Overlong max t) (d : Str) :
    Overlong max (t ++ d) := by
  induction h with
  | here t ht =>
    refine .here _ ?_
    cases max with
    | none => cases ht
    | some n =>
      simp only [Limit.exceeded, Option.any_some, decide_eq_true_eq] at ht ⊢
      refine lt_of_lt_of_le ht ?_
      rw [List.takeWhile_append]
      split
      · rw [List.length_append]
        omega
      · exact le_rfl
  | later l rest hl hne _ ih =>
    rw [List.append_assoc, List.cons_append, List.cons_append]
    exact .later l _ hl hne ih

/-- After whole text, what makes the rest overlong makes all of it overlong. -/
private theorem overlong_of_rest {max : Limit} {t r : Str} (ht : Whole t) {h h' : Hdrs}
    (hscan : scan h t = .more h' r) {d : Str} (ho : Overlong max (r ++ d)) :
    Overlong max (t ++ d) := by
  induction ht generalizing h with
  | piece l hl =>
    rw [scan_piece h hl] at hscan
    cases hscan
    exact ho
  | empty rest =>
    rw [scan_empty] at hscan
    cases hscan
  | line l rest hl hne _ ih =>
    rw [scan_line h hl hne] at hscan
    rw [List.append_assoc, List.cons_append, List.cons_append]
    exact .later l _ hl hne (ih hscan)

/-- No call of the parser meets an overlong line. -/
def Bearable (max : Limit) (cs : List Str) : Prop :=
  ∀ pre c, pre ++ [c] <+: cs → ∀ h r, feed scan .empty [] pre = .more h r → ¬ Overlong max (r ++ c)

theorem Bearable.concat {max : Limit} {cs : List Str} (hb : Bearable max cs) {h : Hdrs} {t c : Str}
    (hfeed : feed scan .empty [] cs = .more h t) (ho : ¬ Overlong max (t ++ c)) :
    Bearable max (cs ++ [c]) := by
  intro pre d hpre
  rcases List.prefix_concat_iff.mp hpre with heq | hpre
  · obtain ⟨rfl, hd⟩ := List.append_inj' heq rfl
    cases hd
    intro h' t' hfeed'
    cases hfeed.symm.trans hfeed'
    exact ho
  · exact hb pre d hpre

theorem Bearable.mono {max : Limit} {cs ds : List Str} (hb : Bearable max ds) (h : cs <+: ds) :
    Bearable max cs :=
  fun pre c hpre ↦ hb pre c (hpre.trans h)

/-- Pieces after which the text is whole are as one. -/
theorem feed_eq_scan {cs : List Str} (hw : ∀ p, p <+: cs → Whole p.flatten) (h : Hdrs) :
    feed scan h [] cs = scan h cs.flatten := by
  rcases List.eq_nil_or_concat' cs with rfl | ⟨q, c, rfl⟩
  · exact (scan_piece h List.not_mem_nil).symm
  · rw [feed_of_whole h fun p hp ↦ hw p (hp.trans (List.prefix_append _ _))]
    simp

/-- The parser meets no overlong line if the text has none, and was whole before each piece. -/
theorem bearable_of_whole {max : Limit} {cs : List Str}
    (hw : ∀ p, p <+: cs → p ≠ cs → Whole p.flatten) (ho : ¬ Overlong max cs.flatten) :
    Bearable max cs := by
  intro pre c hpre h t hfeed hlong
  have hlt {p : List Str} (hp : p <+: pre) : p <+: cs ∧ p ≠ cs :=
    ⟨hp.trans ((List.prefix_append _ _).trans hpre), ne_of_prefix_concat hp hpre⟩
  rw [feed_eq_scan fun p hp ↦ hw p (hlt hp).1 (hlt hp).2] at hfeed
  have hall := overlong_of_rest (hw pre (hlt List.prefix_rfl).1 (hlt List.prefix_rfl).2) hfeed hlong
  obtain ⟨more, rfl⟩ := hpre
  have hcut : (pre ++ [c] ++ more).flatten = pre.flatten ++ c ++ more.flatten := by simp
  rw [hcut] at ho
  exact ho (hall.append _)

/-! ### What is lost -/

/-- How a printed block gets through the parser: the text is whole after each piece, and nothing is
lost; or the empty line is lost and the next one is taken for it. -/
inductive Passes (max : Limit) (hdrs : Hdrs) : List Str → Str → Prop
  | whole {cs : List Str} (h : ∀ p, p <+: cs → Whole p.flatten) : Passes max hdrs cs []
  | cut {pre mid : List Str} (h : Cut hdrs pre mid) (hmax : max.exceeded 1 = false) (e : Str) :
    Passes max hdrs (pre ++ mid ++ ['\n' :: e]) crlf

section Passes

variable {max : Limit} {P : Str → Prop} {hdrs : Hdrs} {cs pre mid : List Str} {lost early : Str}

/-- What the parser has after the cut within the empty line. -/
theorem Cut.feed_empty (hslots : hdrs.Slotted P) (hP : ∀ l, P l → '\r' ∉ l)
    (h : Cut hdrs pre mid) : feed scan .empty [] pre = .more hdrs [] := by
  have hlines : ∀ l ∈ hdrs.lines, l ≠ [] ∧ '\r' ∉ l := fun l hl ↦
    ⟨(hslots.forall_lines l hl).1, hP l (hslots.forall_lines l hl).2⟩
  have htext : pre.flatten = hdrs.lines.flatMap (· ++ crlf) ++ ['\r'] := by
    have hprint := h.empty
    rw [hdrs.print_eq_block, block, show crlf = ['\r'] ++ ['\n'] from rfl, ← List.append_assoc]
      at hprint
    exact List.append_cancel_right hprint
  rcases List.eq_nil_or_concat' pre with rfl | ⟨q, c, rfl⟩
  · cases List.append_eq_nil_iff.mp htext.symm with
    | intro _ hcr => cases hcr
  · have hproper {p : List Str} (hp : p <+: q) : p ≠ q ++ [c] :=
      ne_of_prefix_concat hp List.prefix_rfl
    have hlast : q.flatten ++ c = (q ++ [c]).flatten := by simp
    rw [feed_of_whole .empty fun p hp ↦ h.whole p (hp.trans (List.prefix_append _ _)) (hproper hp),
      hlast, htext, scan_lines hlines, hslots.foldl_lines]
    exact scan_cr hdrs

/-- The next carriage return is in the last of the pieces up to the second cut. -/
private theorem Cut.exists_last (h : Cut hdrs pre mid) : ∃ q x, mid = q ++ [x] ∧
    '\r' ∉ q.flatten ∧ q.flatten ++ x = ['\n', '\r'] := by
  rcases List.eq_nil_or_concat' mid with rfl | ⟨q, x, rfl⟩
  · cases h.next
  · refine ⟨q, x, rfl, ?_, by simpa using h.next⟩
    exact h.late q (List.prefix_append _ _) (ne_of_prefix_concat List.prefix_rfl List.prefix_rfl)

/-- And after the next one. -/
theorem Cut.feed_next (h : Cut hdrs pre mid) : feed scan hdrs [] mid = .more hdrs ['\r'] := by
  obtain ⟨q, x, rfl, hq, hlast⟩ := h.exists_last
  rw [feed_append_of_more scan (feed_piece hq), feed_singleton, List.nil_append, hlast]
  exact scan_lf_cr hdrs (by simp)

/-- What passes is read as it was printed, and the rest is left. -/
theorem Passes.feed_eq (hslots : hdrs.Slotted P) (hP : ∀ l, P l → '\r' ∉ l)
    (h : Passes max hdrs cs lost) (hcs : cs.flatten = hdrs.print ++ (lost ++ early)) :
    feed scan .empty [] cs = .done hdrs early := by
  cases h with
  | whole hw =>
    rw [feed_eq_scan hw, hcs]
    exact hslots.scan_print hP early
  | @cut pre mid hcut _ e =>
    have hflat : (pre ++ mid ++ ['\n' :: e]).flatten = hdrs.print ++ (crlf ++ e) := by
      rw [← hcut.empty]
      simp [hcut.next, crlf]
    rw [hflat, List.append_cancel_left_eq, List.append_cancel_left_eq] at hcs
    rw [List.append_assoc, feed_append_of_more scan (hcut.feed_empty hslots hP),
      feed_append_of_more scan hcut.feed_next, feed_singleton, hcs]
    exact scan_empty hdrs early

/-- Of what passes, no line is too long. -/
theorem Passes.bearable (hslots : hdrs.Slotted P)
    (hP : ∀ l, P l → '\r' ∉ l ∧ max.exceeded l.length = false) (h : Passes max hdrs cs lost)
    (hcs : cs.flatten = hdrs.print ++ (lost ++ early)) : Bearable max cs := by
  have hlines : ∀ l ∈ hdrs.lines, l ≠ [] ∧ '\r' ∉ l := fun l hl ↦
    ⟨(hslots.forall_lines l hl).1, (hP l (hslots.forall_lines l hl).2).1⟩
  have hshort : ∀ l ∈ hdrs.lines, max.exceeded l.length = false := fun l hl ↦
    (hP l (hslots.forall_lines l hl).2).2
  have hblock (rest : Str) : ¬ Overlong max (hdrs.print ++ rest) :=
    not_overlong_block hlines hshort rest
  cases h with
  | whole hw =>
    refine bearable_of_whole (fun p hp _ ↦ hw p hp) ?_
    rw [hcs]
    exact hblock _
  | @cut pre mid hcut hmax e =>
    have hempty := hcut.feed_empty hslots fun l hl ↦ (hP l hl).1
    have hpre : Bearable max pre := by
      refine bearable_of_whole hcut.whole fun ho ↦ hblock [] ?_
      rw [List.append_nil, ← hcut.empty]
      exact ho.append _
    have hnext : ¬ Overlong max ['\n', '\r'] := by
      intro ho
      rw [overlong_lf_cr_iff, hmax] at ho
      cases ho
    have hmid (q : List Str) (hq : q <+: mid) : Bearable max (pre ++ q) := by
      induction q using List.reverseRecOn with
      | nil => simpa using hpre
      | append_singleton q c ih =>
        have hq' : q <+: mid := (List.prefix_append _ _).trans hq
        have hne : q ≠ mid := ne_of_prefix_concat List.prefix_rfl hq
        rw [← List.append_assoc]
        refine (ih hq').concat
          ((feed_append_of_more scan hempty q).trans (feed_piece (hcut.late q hq' hne))) ?_
        rintro ho
        obtain ⟨more, hmore⟩ := hq
        have hflat := hcut.next
        rw [← hmore] at hflat
        have hcons : (q ++ [c] ++ more).flatten = [] ++ q.flatten ++ c ++ more.flatten := by simp
        rw [hcons] at hflat
        rw [← hflat] at hnext
        exact hnext (ho.append _)
    refine (hmid mid List.prefix_rfl).concat
      ((feed_append_of_more scan hempty mid).trans hcut.feed_next) fun ho ↦ ?_
    exact ((overlong_line max (l := []) List.not_mem_nil).mp ho).1 rfl

/-- Pieces of which the last one completes a block that has been printed, if the parser finds the
headers in them and has lost no more than the empty line that was added. -/
theorem passes_of_feed (hslots : hdrs.Slotted P) (hP : ∀ l, P l → '\r' ∉ l) {c d s after : Str}
    (hmore : (feed scan .empty [] cs).isDone = false)
    (hwire : (cs ++ [c]).flatten ++ d = hdrs.print ++ (s ++ after)) (hs : s <+: crlf)
    (hlen : (cs ++ [c]).flatten.length ≤ hdrs.print.length + early.length + s.length)
    (hfeed : feed scan .empty [] (cs ++ [c]) = .done hdrs early) (hb : Bearable max (cs ++ [c])) :
    ∃ lost, Passes max hdrs (cs ++ [c]) lost ∧ lost <+: s ∧
      (cs ++ [c]).flatten = hdrs.print ++ (lost ++ early) := by
  rcases whole_or_cut hslots hP hwire hs hlen hfeed with
    hw | ⟨rfl, pre, mid, e, more, hcs, hcut⟩
  · refine ⟨[], .whole hw, List.nil_prefix, ?_⟩
    rw [feed_eq_scan hw] at hfeed
    have hall := scan_stable .empty _ _ _ hfeed d
    rw [hwire, hslots.scan_print hP] at hall
    rw [(Outcome.done.inj hall).2, ← List.append_assoc] at hwire
    exact List.append_cancel_right hwire
  · have hempty := hcut.feed_empty hslots hP
    have hdone : feed scan .empty [] (pre ++ mid ++ ['\n' :: e]) = .done hdrs e := by
      rw [List.append_assoc, feed_append_of_more scan hempty,
        feed_append_of_more scan hcut.feed_next, feed_singleton]
      exact scan_empty hdrs e
    obtain rfl : more = [] := by
      rcases List.eq_nil_or_concat' more with hnil | ⟨more, c', rfl⟩
      · exact hnil
      · have hcs' : cs ++ [c] = pre ++ mid ++ ['\n' :: e] ++ more ++ [c'] := by simpa using hcs
        rw [(List.append_inj' hcs' rfl).1, feed_append_of_done scan hdone] at hmore
        cases hmore
    rw [hcs] at hfeed hb ⊢
    cases hdone.symm.trans hfeed
    have hflat : (pre ++ mid ++ ['\n' :: early]).flatten = hdrs.print ++ (crlf ++ early) := by
      rw [← hcut.empty]
      simp [hcut.next, crlf]
    refine ⟨crlf, .cut hcut ?_ early, List.prefix_rfl, hflat⟩
    -- the line feed was looked at as a line
    obtain ⟨q, x, rfl, hq, hlast⟩ := hcut.exists_last
    have hshort := hb (pre ++ q) x (by simp [List.append_assoc]) hdrs ([] ++ q.flatten)
      ((feed_append_of_more scan hempty q).trans (feed_piece hq))
    rw [List.nil_append, hlast] at hshort
    exact Bool.eq_false_of_not_eq_true fun hmax ↦ hshort (overlong_lf_cr_iff.mpr hmax)

end Passes

end Filth
