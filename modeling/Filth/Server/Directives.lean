import Filth.Base.Words
import Filth.Http.Names
import Filth.Server.Browsing
import Filth.Server.Prepare

/-!
# Cache directives by the grammar

The grammar that `browse_req` quotes, `src/HTTP_2616_Server_Work.cpp:372–383`, as data: a
`Cache-Control` line lists directives, separated by commas, with linear white space around each.
What `browse_req` makes of such a line is compared with what the line says.
-/

namespace Filth

open Base WorkM

/-- Linear white space, as far as a line can hold it. -/
abbrev Pad := { s : Str // ∀ c ∈ s, c = ' ' ∨ c = '\t' }

/-- No white space at all. -/
def Pad.none : Pad := ⟨[], nofun⟩

/-- `"=" delta-seconds`, with white space on both sides of the sign. -/
structure DeltaSeconds where
  before : Pad
  after : Pad
  digits : { s : Str // s ≠ [] ∧ ∀ c ∈ s, c.isDigit = true }

/-- The number of seconds. -/
def DeltaSeconds.val (n : DeltaSeconds) : Int := digitsValue n.digits.1

def DeltaSeconds.text (n : DeltaSeconds) : Str := n.before.1 ++ '=' :: (n.after.1 ++ n.digits.1)

/-- `cache-request-directive`, without extensions. -/
inductive Directive where
  | noCache | noStore | noTransform | onlyIfCached
  | maxAge (n : DeltaSeconds)
  | maxStale (n : Option DeltaSeconds)
  | minFresh (n : DeltaSeconds)

/-- The names of the directives. -/
def CacheOpt.name : CacheOpt → Str
  | .noCache => "no-cache".toList
  | .noStore => "no-store".toList
  | .noTransform => "no-transform".toList
  | .onlyIfCached => "only-if-cached".toList
  | .useMaxAge => "max-age".toList
  | .useMaxStale => "max-stale".toList
  | .useMinFresh => "min-fresh".toList

namespace Directive

/-- The flag that stands for a directive. -/
def opt : Directive → CacheOpt
  | noCache => .noCache
  | noStore => .noStore
  | noTransform => .noTransform
  | onlyIfCached => .onlyIfCached
  | maxAge _ => .useMaxAge
  | maxStale _ => .useMaxStale
  | minFresh _ => .useMinFresh

/-- Its value, if it has one. -/
def delta : Directive → Option DeltaSeconds
  | maxAge n => some n
  | maxStale n => n
  | minFresh n => some n
  | _ => none

def text (d : Directive) : Str := d.opt.name ++ (d.delta.elim [] DeltaSeconds.text)

end Directive

/-- An element of the list. -/
structure Listed where
  before : Pad
  directive : Directive
  after : Pad

def Listed.text (l : Listed) : Str := l.before.1 ++ (l.directive.text ++ l.after.1)

/-- The text of the list. -/
def listText : List Listed → Str
  | [] => []
  | [l] => l.text
  | l :: ls => l.text ++ ',' :: listText ls

/-- A `Cache-Control` line that lists these directives, one at least. -/
structure Conforms (line : Str) (ls : List Listed) : Prop where
  header : Header.extract line = some (.cacheControl, listText ls)
  nonempty : ls ≠ []

/-- The field that a flag comes with, if one does. -/
def CacheControl.field (cc : CacheControl) : CacheOpt → Int
  | .useMaxAge => cc.maxAge
  | .useMaxStale => cc.maxStale
  | .useMinFresh => cc.minFresh
  | _ => 0

section Names

variable {o : CacheOpt} {ls : List Listed} {line value : Str}

private theorem CacheOpt.name_ne_nil (o : CacheOpt) : o.name ≠ [] := by cases o <;> decide

/-- Names consist of small letters and hyphens. -/
theorem CacheOpt.mem_name (o : CacheOpt) {c : Char} (hc : c ∈ o.name) :
    (c.isLower || c == '-') = true := by
  have hall : o.name.all (fun c ↦ c.isLower || c == '-') = true := by cases o <;> rfl
  exact List.all_eq_true.mp hall c hc

private theorem CacheOpt.separators (o : CacheOpt) {c : Char}
    (hc : (c.isLower || c == '-') = false) :
    c ∉ o.name := fun hname ↦ by simp [o.mem_name hname] at hc

/-- No name is part of another. -/
theorem CacheOpt.name_infix_iff (o o' : CacheOpt) : o.name <:+: o'.name ↔ o' = o := by
  cases o <;> cases o' <;> decide

private theorem Pad.not_mem_name (p : Pad) (o : CacheOpt) : ∀ c ∈ p.1, c ∉ o.name := by
  intro c hc
  apply o.separators
  rcases p.2 c hc with rfl | rfl <;> rfl

/-- Digits are no part of names. -/
theorem not_name_of_isDigit {c : Char} (hc : c.isDigit = true) :
    (c.isLower || c == '-') = false := by
  have hrange : 48 ≤ c.toNat ∧ c.toNat ≤ 57 := by
    simpa [Char.isDigit, UInt32.le_iff_toNat_le] using hc
  have hlower : c.isLower = false := by
    simp [Char.isLower, UInt32.le_iff_toNat_le]
    omega
  have hhyphen : c ≠ '-' := by
    rintro rfl
    simp at hrange
  simp [hlower, hhyphen]

/-- Nor is white space. -/
theorem not_name_of_isspace {c : Char} (hc : isspace c = true) :
    (c.isLower || c == '-') = false := by
  simp only [isspace, List.mem_cons, List.not_mem_nil, or_false, decide_eq_true_eq] at hc
  rcases hc with rfl | rfl | rfl | rfl | rfl | rfl <;> rfl

private theorem name_infix_delta (o : CacheOpt) (n : DeltaSeconds) : ¬ o.name <:+: n.text := by
  rw [DeltaSeconds.text, infix_append_cons_iff (o.separators (c := '=') rfl),
    infix_pad_append_iff o.name_ne_nil (n.after.not_mem_name o)]
  rintro (h | h)
  · exact not_infix_of_disjoint o.name_ne_nil (n.before.not_mem_name o) h
  · refine not_infix_of_disjoint o.name_ne_nil (fun c hc ↦ o.separators ?_) h
    exact not_name_of_isDigit (n.digits.2.2 c hc)

/-- A directive has its own name in it, and no other. -/
private theorem name_infix_directive (o : CacheOpt) (d : Directive) :
    o.name <:+: d.text ↔ d.opt = o := by
  rw [Directive.text]
  cases d.delta with
  | none => rw [Option.elim_none, List.append_nil, o.name_infix_iff]
  | some n =>
    rw [Option.elim_some, DeltaSeconds.text, ← List.append_assoc,
      infix_append_cons_iff (o.separators (c := '=') rfl),
      infix_append_pad_iff o.name_ne_nil (n.before.not_mem_name o), o.name_infix_iff]
    refine or_iff_left fun h ↦ name_infix_delta o n ?_
    exact List.infix_append_of_infix_right (List.infix_cons h)

private theorem name_infix_listed (o : CacheOpt) (l : Listed) :
    o.name <:+: l.text ↔ l.directive.opt = o := by
  rw [Listed.text, infix_pad_append_iff o.name_ne_nil (l.before.not_mem_name o),
    infix_append_pad_iff o.name_ne_nil (l.after.not_mem_name o), name_infix_directive]

/-- A list has the names of what is listed in it. -/
private theorem name_infix_listText (o : CacheOpt) (ls : List Listed) :
    o.name <:+: listText ls ↔ ∃ l ∈ ls, l.directive.opt = o := by
  induction ls using listText.induct with
  | case1 => simp [listText, o.name_ne_nil]
  | case2 l => simp [listText, name_infix_listed]
  | case3 l ls hne ih =>
    rw [listText, infix_append_cons_iff (o.separators (c := ',') rfl), ih, name_infix_listed]
    · simp
    · exact hne

/-- Hyphens become underscores when the name of a header is looked up. -/
private def underscore (c : Char) : Char := if c = '-' then '_' else c

private theorem not_sign_of_isspace {c : Char} (hc : isspace c = true) : c ≠ '-' ∧ c ≠ '+' := by
  constructor <;> rintro rfl <;> exact absurd hc (by decide)

/-- A line that is read as a header has a name, which the table knows, and a colon. -/
private theorem exists_name {h : Header} (hline : Header.extract line = some (h, value)) :
    ∃ name, line = name ++ ':' :: value ∧ trim (name.map underscore) = h.str := by
  unfold Header.extract at hline
  dsimp only at hline
  split at hline
  · next hlt =>
    obtain ⟨h', hfind, heq⟩ := Option.map_eq_some_iff.mp hline
    cases heq
    obtain ⟨a, b, rfl, ha⟩ := List.eq_append_cons_of_mem (length_takeWhile_ne_lt_iff.mp hlt)
    rw [takeWhile_ne_append ha] at hfind ⊢
    refine ⟨a, ?_, (Header.str_of_find hfind).symm⟩
    simp
  · cases hline

/-- The name of the header is apart from what is looked for. -/
theorem exists_header (h : Header.extract line = some (.cacheControl, value)) :
    ∃ name, line = name ++ ':' :: value ∧ Unsigned name ∧ '=' ∉ name ∧
      (∀ c ∈ name, c.isDigit = false) ∧ ∀ o : CacheOpt, ¬ o.name <:+: name := by
  obtain ⟨name, hline, htrim⟩ := exists_name h
  refine ⟨name, hline, ?_⟩
  obtain ⟨a, b, hname, ha, hb⟩ := exists_trim (name.map underscore)
  rw [htrim] at hname
  obtain ⟨a', cb, rfl, rfl, hcb⟩ := List.map_eq_append_iff.mp hname
  obtain ⟨core, b', rfl, hcore, rfl⟩ := List.map_eq_append_iff.mp hcb
  have hpad : ∀ s : Str, (∀ c ∈ s.map underscore, isspace c = true) →
      ∀ c ∈ s, isspace c = true := by
    intro s hs c hc
    exact (isspace_underscored c).symm.trans (hs _ (List.mem_map_of_mem hc))
  have ha' := hpad a' ha
  have hb' := hpad b' hb
  have hcoreAll : ∀ c ∈ core,
      isspace (underscore c) = false ∧ underscore c ≠ '=' ∧ (underscore c).isDigit = false := by
    have hall : Header.cacheControl.str.all
        (fun c ↦ !isspace c && (c != '=' && !c.isDigit)) = true := rfl
    intro c hc
    have := List.all_eq_true.mp hall _ (hcore ▸ List.mem_map_of_mem hc)
    simpa using this
  refine ⟨?_, ?_, ?_, ?_⟩
  · refine (Unsigned.of_forall ?_).append (.append (.of_word ?_ ?_) (.of_forall ?_))
    · exact fun c hc ↦ not_sign_of_isspace (ha' c hc)
    · exact fun c hc ↦ (isspace_underscored c).symm.trans (hcoreAll c hc).1
    · intro c hc
      have hhead := congrArg List.head? hcore
      rw [List.head?_map, hc] at hhead
      constructor <;> rintro rfl <;> exact absurd hhead (by decide)
    · exact fun c hc ↦ not_sign_of_isspace (hb' c hc)
  · simp only [List.mem_append, not_or]
    refine ⟨fun h ↦ ?_, fun h ↦ ?_, fun h ↦ ?_⟩
    · exact absurd (ha' _ h) (by decide)
    · exact absurd (hcoreAll _ h).2.1 (by decide)
    · exact absurd (hb' _ h) (by decide)
  · intro c hc
    rcases List.mem_append.mp hc with hc | hc
    · exact isDigit_of_isspace (ha' c hc)
    rcases List.mem_append.mp hc with hc | hc
    · have hdigit := (hcoreAll c hc).2.2
      unfold underscore at hdigit
      split at hdigit
      · next heq => rw [heq]; rfl
      · exact hdigit
    · exact isDigit_of_isspace (hb' c hc)
  · intro o
    have hsep {s : Str} (hs : ∀ c ∈ s, isspace c = true) : ∀ c ∈ s, c ∉ o.name :=
      fun c hc ↦ o.separators (not_name_of_isspace (hs c hc))
    rw [infix_pad_append_iff o.name_ne_nil (hsep ha'), infix_append_pad_iff o.name_ne_nil (hsep hb')]
    intro hin
    have := hin.map underscore
    rw [hcore] at this
    revert this
    cases o <;> decide

end Names

section Conforms

variable {line : Str} {ls : List Listed}

/-- A name is found in the line if it is listed. -/
theorem Conforms.name_infix_iff (h : Conforms line ls) (o : CacheOpt) :
    o.name <:+: line ↔ ∃ l ∈ ls, l.directive.opt = o := by
  obtain ⟨name, rfl, -, -, -, hname⟩ := exists_header h.header
  rw [infix_append_cons_iff (o.separators (c := ':') rfl), name_infix_listText]
  exact or_iff_right (hname o)

private theorem mem_directive_text (d : Directive) : '=' ∈ d.text ↔ d.delta.isSome = true := by
  have hname : '=' ∉ d.opt.name := d.opt.separators rfl
  rw [Directive.text]
  cases d.delta with
  | none => simp [hname]
  | some n => simp [DeltaSeconds.text]

private theorem mem_listed_text (l : Listed) : '=' ∈ l.text ↔ l.directive.delta.isSome = true := by
  have hpad (p : Pad) : '=' ∉ p.1 := fun h ↦ by rcases p.2 _ h with h | h <;> cases h
  simp [Listed.text, hpad, mem_directive_text]

private theorem mem_listText (ls : List Listed) :
    '=' ∈ listText ls ↔ ∃ l ∈ ls, l.directive.delta.isSome = true := by
  induction ls using listText.induct with
  | case1 => simp [listText]
  | case2 l => simp [listText, mem_listed_text]
  | case3 l ls hne ih =>
    rw [listText, List.mem_append, List.mem_cons, ih, mem_listed_text]
    · simp
    · exact hne

/-- The line has an equals sign if a value is listed. -/
theorem Conforms.mem_iff (h : Conforms line ls) :
    '=' ∈ line ↔ ∃ l ∈ ls, l.directive.delta.isSome = true := by
  obtain ⟨name, rfl, -, hname, -⟩ := exists_header h.header
  simp [hname, mem_listText]

private theorem unsigned_pad (p : Pad) : Unsigned p.1 := by
  apply Unsigned.of_forall
  intro c hc
  rcases p.2 c hc with rfl | rfl <;> decide

private theorem unsigned_delta (n : DeltaSeconds) : Unsigned n.text := by
  refine (unsigned_pad n.before).append (.cons (by decide) ((unsigned_pad n.after).append ?_))
  apply Unsigned.of_forall
  intro c hc
  have hdigit := n.digits.2.2 c hc
  constructor <;> rintro rfl <;> exact absurd hdigit (by decide)

private theorem unsigned_name (o : CacheOpt) : Unsigned o.name := by
  apply Unsigned.of_word
  · intro c hc
    by_contra hspace
    rw [Bool.not_eq_false] at hspace
    have hname := o.mem_name hc
    rw [not_name_of_isspace hspace] at hname
    cases hname
  · have hhead : o.name.head?.all (fun c ↦ c != '-' && c != '+') = true := by cases o <;> rfl
    intro c hc
    simpa [hc] using hhead

private theorem unsigned_listed (l : Listed) : Unsigned l.text := by
  refine (unsigned_pad l.before).append (.append (.append (unsigned_name _) ?_)
    (unsigned_pad l.after))
  cases l.directive.delta with
  | none => exact .nil
  | some n => exact unsigned_delta n

private theorem unsigned_listText (ls : List Listed) : Unsigned (listText ls) := by
  induction ls using listText.induct with
  | case1 => exact .nil
  | case2 l => exact unsigned_listed l
  | case3 l ls hne ih =>
    rw [listText]
    · exact (unsigned_listed l).append (.cons (by decide) ih)
    · exact hne

/-- There is no sign before a number in the line. -/
private theorem Conforms.unsigned (h : Conforms line ls) : Unsigned line := by
  obtain ⟨name, rfl, hname, -⟩ := exists_header h.header
  exact hname.append (.cons (by decide) (unsigned_listText ls))

/-- The order in which the names are looked for. -/
private theorem directive_eq (line : Str) : directive line =
    if line = [] then none
    else if CacheOpt.noCache.name <:+: line then some .noCache
    else if CacheOpt.noStore.name <:+: line then some .noStore
    else if CacheOpt.noTransform.name <:+: line then some .noTransform
    else if CacheOpt.onlyIfCached.name <:+: line then some .onlyIfCached
    else if CacheOpt.useMaxAge.name <:+: line then some .useMaxAge
    else if CacheOpt.useMaxStale.name <:+: line then some .useMaxStale
    else if CacheOpt.useMinFresh.name <:+: line then some .useMinFresh
    else none := rfl

/-- If only one kind is listed, it is set. -/
theorem Conforms.directive_of_uniform (h : Conforms line ls) {o : CacheOpt}
    (hall : ∀ l ∈ ls, l.directive.opt = o) : directive line = some o := by
  have hname (o' : CacheOpt) : o'.name <:+: line ↔ o = o' := by
    rw [h.name_infix_iff]
    constructor
    · rintro ⟨l, hl, rfl⟩
      exact (hall l hl).symm
    · rintro rfl
      obtain ⟨l, hl⟩ := List.exists_mem_of_ne_nil ls h.nonempty
      exact ⟨l, hl, hall l hl⟩
  have hne : line ≠ [] := by
    obtain ⟨name, rfl, -⟩ := exists_header h.header
    simp
  rw [directive_eq, if_neg hne]
  simp only [hname]
  cases o <;> rfl

/-- What the field of a directive has after a line without signs: nothing new if there is no
third word, else the number at the front of that word. -/
def kept (line : Str) (old : Int) : Int :=
  if thirdWord line = [] then old else frontNumber (thirdWord line)

private theorem extractAfterTwoWords_of_unsigned (h : Unsigned line) (old : Int) :
    (extractAfterTwoWords line old).2 = kept line old := by
  unfold kept
  split
  · next hblank => exact extractAfterTwoWords_of_noValue hblank old
  · next hthird =>
    unfold extractAfterTwoWords
    dsimp only
    split
    · next hblank =>
      refine absurd ?_ hthird
      rw [thirdWord, word_of_blank hblank]
      rfl
    · exact (extractTime_of_unsigned h.word.word old).trans (if_neg hthird)

/-- The field of the directive that is set. -/
theorem Conforms.field_readCacheControl (h : Conforms line ls) {o : CacheOpt}
    (hall : ∀ l ∈ ls, l.directive.opt = o) {l : Listed} (hl : l ∈ ls) {n : DeltaSeconds}
    (hn : l.directive.delta = some n) (cc : CacheControl) :
    (readCacheControl line cc).2.field o = kept line (cc.field o) := by
  have hset := h.directive_of_uniform hall
  have hvalue : '=' ∈ line := h.mem_iff.mpr ⟨l, hl, by rw [hn]; rfl⟩
  have hkept := extractAfterTwoWords_of_unsigned h.unsigned
  have hopt := hall l hl
  cases hd : l.directive with
  | maxAge m =>
    rw [hd] at hopt
    obtain rfl : CacheOpt.useMaxAge = o := hopt
    exact (readCacheControl_maxAge hset cc).trans (hkept _)
  | maxStale m =>
    rw [hd] at hopt
    obtain rfl : CacheOpt.useMaxStale = o := hopt
    exact (readCacheControl_maxStale hset cc).trans ((if_pos hvalue).trans (hkept _))
  | minFresh m =>
    rw [hd] at hopt
    obtain rfl : CacheOpt.useMinFresh = o := hopt
    exact (readCacheControl_minFresh hset cc).trans (hkept _)
  | _ =>
    rw [hd] at hn
    cases hn

private theorem isDigit_pad (p : Pad) : ∀ c ∈ p.1, c.isDigit = false := by
  intro c hc
  rcases p.2 c hc with rfl | rfl <;> rfl

private theorem CacheOpt.isDigit_name (o : CacheOpt) : ∀ c ∈ o.name, c.isDigit = false := by
  intro c hc
  by_contra hdigit
  rw [Bool.not_eq_false] at hdigit
  have hname := o.mem_name hc
  rw [not_name_of_isDigit hdigit] at hname
  cases hname

/-- Where one directive with a value is listed, the first digit in the line is that of the
value. -/
theorem Conforms.exists_front {l : Listed} (h : Conforms line [l]) {n : DeltaSeconds}
    (hn : l.directive.delta = some n) :
    ∃ front, line = front ++ (n.digits.1 ++ l.after.1) ∧ ∀ c ∈ front, c.isDigit = false := by
  obtain ⟨name, rfl, -, -, hname, -⟩ := exists_header h.header
  refine ⟨name ++ ':' :: (l.before.1 ++ (l.directive.opt.name ++ (n.before.1 ++ '=' :: n.after.1))),
    ?_, ?_⟩
  · simp [listText, Listed.text, Directive.text, hn, DeltaSeconds.text]
  · simp only [List.forall_mem_append, List.forall_mem_cons]
    exact ⟨hname, rfl, isDigit_pad _, l.directive.opt.isDigit_name, isDigit_pad _, rfl,
      isDigit_pad _⟩

/-- The number that a listed value is taken for. It is found if it is the third word of the line;
another third word counts as zero, and without one the field keeps its old value. -/
def Listed.found (l : Listed) (n : DeltaSeconds) (line : Str) (old : Int) : Int :=
  if thirdWord line = n.digits.1 ++ l.after.1 then min n.val (2 ^ 63 - 1)
  else if thirdWord line = [] then old
  else 0

private theorem frontNumber_digits {ds rest : Str} (hds : ∀ c ∈ ds, c.isDigit = true)
    (hrest : ∀ c ∈ rest, c.isDigit = false) :
    frontNumber (ds ++ rest) = min (digitsValue ds : Int) (2 ^ 63 - 1) := by
  have hnil : rest.takeWhile Char.isDigit = [] := by
    cases rest with
    | nil => rfl
    | cons c rest => simp [hrest c List.mem_cons_self]
  rw [frontNumber, List.takeWhile_append_of_pos hds, hnil, List.append_nil]

theorem Conforms.kept_eq {l : Listed} (h : Conforms line [l]) {n : DeltaSeconds}
    (hn : l.directive.delta = some n) (old : Int) : kept line old = l.found n line old := by
  obtain ⟨front, hline, hfront⟩ := h.exists_front hn
  unfold kept Listed.found
  split_ifs with hnil hfound hfound
  · rw [hnil] at hfound
    exact absurd (List.append_eq_nil_iff.mp hfound.symm).1 n.digits.2.1
  · rfl
  · rw [hfound, frontNumber_digits n.digits.2.2 (isDigit_pad l.after)]
    rfl
  · -- were there a digit in front, it would begin the number
    obtain ⟨d, t, hd⟩ := List.exists_cons_of_ne_nil hnil
    obtain ⟨u, c, hu, hc⟩ := exists_thirdWord hnil
    have hdigit : d.isDigit = false := by
      by_contra hdigit
      rw [Bool.not_eq_false] at hdigit
      apply hfound
      rw [hd]
      refine eq_of_digit_of_isspace (u := u) ?_ hc hdigit hfront n.digits.2.2 (isDigit_pad l.after)
      rw [← hline, ← hd, List.append_assoc]
      exact hu
    rw [hd, frontNumber, List.takeWhile_cons_of_neg (by simp [hdigit])]
    rfl

end Conforms

/-- The settings say what the list says, so nothing is stored where it says `no-store`. -/
structure ReadAsListed (ls : List Listed) (cc : CacheControl) : Prop where
  isset (o) : cc.isset o = true ↔ ∃ l ∈ ls, l.directive.opt = o
  field : ∀ l ∈ ls, ∀ n, l.directive.delta = some n → cc.field l.directive.opt = n.val
  noStore : (∃ l ∈ ls, l.directive.opt = .noStore) →
    ∀ {ω Ref : Type} (W : World ω Ref) (path : Str) (r : Ref) (s : Scene ω Ref),
      s.client.clCacheControl = cc →
        cachePut W path r s = (.ok false, s) ∨
          cachePut W path r s = (.ok false, { s with world := (W.time s.world).2 })

/-- All directives are of one kind. -/
def OneKind (ls : List Listed) : Prop := ∃ o, ∀ l ∈ ls, l.directive.opt = o

/-- Asking whether a method stores reads the clock at most. -/
private theorem methodStores_ok {ω Ref : Type} (W : World ω Ref) (r : Ref) (s : Scene ω Ref) :
    ∃ b, methodStores W r s = (.ok b, s) ∨
      methodStores W r s = (.ok b, { s with world := (W.time s.world).2 }) := by
  unfold methodStores
  rw [asks_bind]
  split
  · exact ⟨false, .inl rfl⟩
  · split
    · unfold unexpired
      rw [load_bind]
      split
      · exact ⟨_, .inr rfl⟩
      · exact ⟨false, .inl rfl⟩
    · exact ⟨true, .inl rfl⟩

/-- With the flag for `no-store` set, nothing is put. -/
private theorem cachePut_of_noStore {ω Ref : Type} (W : World ω Ref) (path : Str) (r : Ref)
    {s : Scene ω Ref} (h : s.client.clCacheControl.isset .noStore = true) :
    cachePut W path r s = (.ok false, s) ∨
      cachePut W path r s = (.ok false, { s with world := (W.time s.world).2 }) := by
  have hrest (b : Bool) (s' : Scene ω Ref) (hs : s'.client = s.client)
      (hm : methodStores W r s = (.ok b, s')) : cachePut W path r s = (.ok false, s') := by
    unfold cachePut
    rw [Eff.bind_ok hm]
    cases b with
    | false => rfl
    | true =>
      unfold isset
      rw [if_neg (by simp), asks_bind, hs, h]
      rfl
  obtain ⟨b, hm | hm⟩ := methodStores_ok W r s
  · exact .inl (hrest b _ rfl hm)
  · exact .inr (hrest b _ rfl hm)

variable {cfg : Config} {w w' : Client} {ls : List Listed}

/-- A line is read as it is written if and only if it lists one kind of directive, and every
value that is written is the number found at the third word, or was in the field before. -/
theorem readAsListed_iff (hflags : w.clCacheControl.flags = [])
    (hline : Conforms (w.line .cacheControl) ls) (hbrowse : Client.browseReq cfg w = (.ok (), w')) :
    ReadAsListed ls w'.clCacheControl ↔ OneKind ls ∧
      ∀ l ∈ ls, ∀ n, l.directive.delta = some n →
        n.val = kept (w.line .cacheControl) (w.clCacheControl.field l.directive.opt) := by
  rw [(Client.browsed hbrowse).clCacheControl]
  have hset := isset_readCacheControl (w.line .cacheControl) hflags
  constructor
  · intro h
    have hdir : ∀ l ∈ ls, directive (w.line .cacheControl) = some l.directive.opt :=
      fun l hl ↦ (hset _).mp ((h.isset _).mpr ⟨l, hl, rfl⟩)
    obtain ⟨l₀, hl₀⟩ := List.exists_mem_of_ne_nil ls hline.nonempty
    have hall : ∀ l ∈ ls, l.directive.opt = l₀.directive.opt :=
      fun l hl ↦ Option.some.inj ((hdir l hl).symm.trans (hdir l₀ hl₀))
    refine ⟨⟨_, hall⟩, fun l hl n hn ↦ ?_⟩
    rw [← h.field l hl n hn, hall l hl]
    exact hline.field_readCacheControl hall hl hn _
  · rintro ⟨⟨o, hall⟩, hvalue⟩
    have hisset : ∀ o', (readCacheControl (w.line .cacheControl) w.clCacheControl).2.isset o' = true ↔
        ∃ l ∈ ls, l.directive.opt = o' := by
      intro o'
      rw [hset, hline.directive_of_uniform hall]
      constructor
      · intro h
        obtain ⟨l, hl⟩ := List.exists_mem_of_ne_nil ls hline.nonempty
        exact ⟨l, hl, (hall l hl).trans (Option.some.inj h)⟩
      · rintro ⟨l, hl, rfl⟩
        rw [hall l hl]
    refine ⟨hisset, fun l hl n hn ↦ ?_, fun hstore ω Ref W path r s hs ↦ ?_⟩
    · rw [hvalue l hl n hn, hall l hl]
      exact hline.field_readCacheControl hall hl hn _
    · apply cachePut_of_noStore
      rw [hs]
      exact (hisset _).mpr hstore

/-- A directive with a space in front. -/
def Listed.plain (d : Directive) : Listed := ⟨⟨[' '], by simp⟩, d, .none⟩

/-- A request with a `Cache-Control` line. -/
def Client.asking (line : String) : Client :=
  { Client.new with reqHdrs :=
    { Hdrs.ofReqln "GET /a HTTP/1.1" with
      hdr := Function.update (fun _ ↦ []) .cacheControl line.toList } }

/-- The seconds of `max-age= 5`. -/
def DeltaSeconds.five : DeltaSeconds := ⟨.none, ⟨[' '], by simp⟩, ⟨['5'], by simp, by simp⟩⟩

theorem readAsListed_iff_five :
    ReadAsListed [.plain (.maxAge .five)]
        (Client.browseReq .lax (.asking "Cache-Control: max-age= 5")).2.clCacheControl ↔
      OneKind [.plain (.maxAge .five)] ∧ ∀ l ∈ [Listed.plain (.maxAge .five)],
        ∀ n : DeltaSeconds, l.directive.delta = some n →
          n.val = kept ((Client.asking "Cache-Control: max-age= 5").line .cacheControl)
            ((Client.asking "Cache-Control: max-age= 5").clCacheControl.field l.directive.opt) :=
  readAsListed_iff (w := .asking "Cache-Control: max-age= 5") rfl ⟨by decide +kernel, by simp⟩
    (show Client.browseReq .lax _ = _ from rfl)

/-- Of two directives only one is read, and what must not be stored is stored. -/
theorem not_readAsListed_two :
    ¬ ∀ (cfg : Config) (w w' : Client) (ls : List Listed), w.clCacheControl.flags = [] →
      Conforms (w.line .cacheControl) ls → Client.browseReq cfg w = (.ok (), w') →
        ReadAsListed ls w'.clCacheControl := by
  intro h
  have hread := h .lax (.asking "Cache-Control: no-cache, no-store") _
    [.plain .noCache, .plain .noStore] rfl ⟨by decide +kernel, by simp⟩ rfl
  have hset := (hread.isset .noStore).mpr ⟨.plain .noStore, by simp, rfl⟩
  exact absurd hset (by decide +kernel)

end Filth
