import Filth.Base.Guarded
import Filth.Base.Words
import Filth.Http.Names

/-!
# How header names are trimmed

`HTTP_constants::operator>>`, `src/HTTP_constants.cpp:104–139`, on the memory that the name lies in.
Two loops move an index over white space, one from each end, and neither looks where the name ends.
The first is stopped by the NUL behind the name. The second is stopped by a character that is not
white space, if there is one; otherwise it goes on in front of the name.
-/

namespace Filth

open Base

/-- A `std::string`, whose characters can be counted. -/
abbrev StdString := { s : Str // s.length < 2 ^ 64 - 1 }

/-- What a reader of a header may throw. -/
inductive Thrown where
  /-- `HTTP_oops` -/
  | oops (status : Status)
  /-- `std::out_of_range` -/
  | outOfRange
  deriving DecidableEq, Repr

/-- `substr`. -/
def substr (s : Str) (pos n : UInt64) : Except Thrown Str :=
  if s.length < pos.toNat then .error .outOfRange else .ok ((s.drop pos.toNat).take n.toNat)

/-- A name in memory, with underscores for hyphens and a NUL behind it. -/
def underscored (tmp : StdString) (outside : UInt64 → Char) : Guarded isspace where
  items := tmp.val.map fun c ↦ if c = '-' then '_' else c
  guard := '\x00'
  outside
  length_lt := by
    rw [List.length_map]
    exact tmp.property
  guard_fails := by decide

/-- What trimming a name does: the indices that its loops use, and the arguments of `substr`. -/
structure Trimming where
  indices : List UInt64
  pos : UInt64
  n : UInt64
  deriving DecidableEq, Repr

/-- The loops, `src/HTTP_constants.cpp:121–127`. -/
def trimming (tmp : Guarded isspace) : Trimming :=
  let start := tmp.stop .up 0
  let last := tmp.stop .down (tmp.size - 1)
  { indices := tmp.tested .up 0 ++ tmp.tested .down (tmp.size - 1)
    pos := start
    n := last - start + 1 }

/-- The characters in front of the colon. -/
def beforeColon (line : StdString) : StdString :=
  ⟨line.val.takeWhile (· ≠ ':'), (List.takeWhile_sublist _).length_le.trans_lt line.property⟩

/-- The name at the front of a line, as it is about to be trimmed, and the stream behind it. -/
def extracted (line : StdString) (outside : UInt64 → Char) :
    Except Thrown (Guarded isspace × IStream) :=
  let i := (IStream.new line.val).clear.getline ':'
  if i.2.good then
    .ok (underscored ⟨i.1, (IStream.length_getline_le _ _).trans_lt line.property⟩ outside,
      i.2.clear)
  else .error (.oops .badRequest)

/-- `operator>>(istream &, header &)` on a stream over a line, `src/HTTP_constants.cpp:104–139`. -/
def Header.read (line : StdString) (outside : UInt64 → Char) :
    Except Thrown (Header × IStream) := do
  let (tmp, i) ← extracted line outside
  let name ← substr tmp.items (trimming tmp).pos (trimming tmp).n
  match find name with
  | some h => return (h, i)
  | none => throw (.oops .badRequest)

/-- The loops use no index outside the name, and what `substr` is asked for is the name without the
white space around it. -/
structure TrimsInside (tmp : Guarded isspace) : Prop where
  inside : ∀ i ∈ (trimming tmp).indices, tmp.Inside i
  within : (trimming tmp).pos.toNat + (trimming tmp).n.toNat ≤ tmp.items.length
  between : (tmp.items.drop (trimming tmp).pos.toNat).take (trimming tmp).n.toNat = trim tmp.items

/-- So it is with the name at the front of a line, if it has one. -/
def ReadsInside (line : StdString) (outside : UInt64 → Char) : Prop :=
  ∀ tmp i, extracted line outside = .ok (tmp, i) → TrimsInside tmp

/-! ### Where the loops stop -/

section Loops

variable {tmp : Guarded isspace}

/-- The first loop stops at the first character that is not white space, and the second at the last
one. -/
theorem trimsInside_of_ne_nil (hne : trim tmp.items ≠ []) : TrimsInside tmp := by
  obtain ⟨a, b, hitems, ha, hb⟩ := exists_trim tmp.items
  obtain ⟨core, x, hcore⟩ := (List.eq_nil_or_concat' (trim tmp.items)).resolve_left hne
  have hlen := congrArg List.length hitems
  simp only [List.length_append, hcore, List.length_singleton] at hlen
  have hlt := tmp.length_lt
  -- the first loop passes what is in front
  have hwhole : tmp.items = [] ++ (a ++ (trim tmp.items ++ b)) := hitems
  have hup := Guarded.up_of_append (i := 0) hwhole rfl ha
    fun d hd ↦ isspace_head?_trim (by rwa [List.head?_append_of_ne_nil _ hne] at hd)
  rw [List.length_nil, Nat.zero_add] at hup
  -- the second loop begins at the last character, and passes what is behind
  have hsplit : tmp.items = (a ++ core) ++ x :: (b ++ []) := by
    rw [hcore] at hitems
    rw [hitems]
    simp
  have hlast : (tmp.size - 1).toNat = (a ++ core).length + b.length := by
    rw [UInt64.toNat_sub, UInt64.toNat_one, Guarded.toNat_size, List.length_append]
    omega
  have hdown := Guarded.down_of_append hsplit hlast
    (isspace_getLast?_trim (by rw [hcore]; exact List.getLast?_concat)) hb
  rw [List.length_append] at hdown
  have hpos : (trimming tmp).pos.toNat = a.length := hup.toNat_stop
  have hn : (trimming tmp).n.toNat = (trim tmp.items).length := by
    rw [trimming, UInt64.toNat_add, UInt64.toNat_sub, UInt64.toNat_one, hup.toNat_stop,
      hdown.toNat_stop, hcore, List.length_append, List.length_singleton]
    omega
  refine ⟨fun i hi ↦ (List.mem_append.mp hi).elim (hup.inside i) (hdown.inside i), ?_, ?_⟩
  · rw [hn, hpos, hcore, List.length_append, List.length_singleton]
    omega
  · have hdrop := congrArg (List.drop a.length) hitems
    rw [List.drop_left] at hdrop
    rw [hn, hpos, hdrop, List.take_left]

/-- In a name that is nothing but white space, the second loop goes on in front. -/
private theorem not_trimsInside_of_eq_nil (hnil : trim tmp.items = []) : ¬ TrimsInside tmp := by
  intro h
  have hitems : tmp.items = tmp.items ++ [] := (List.append_nil _).symm
  have hmem : -1 ∈ tmp.tested .down (tmp.size - 1) :=
    Guarded.down_past_zero hitems rfl (trim_eq_nil_iff.mp hnil)
  exact Guarded.not_inside_neg_one (h.inside _ (List.mem_append_right _ hmem))

/-- Even so `substr` does not throw, and what it returns is the name without white space, whatever
memory holds. -/
theorem substr_trimming :
    substr tmp.items (trimming tmp).pos (trimming tmp).n = .ok (trim tmp.items) := by
  by_cases hnil : trim tmp.items = []
  · have hitems : tmp.items = [] ++ (tmp.items ++ []) := (List.append_nil _).symm
    have hup := Guarded.up_of_append (i := 0) hitems rfl (trim_eq_nil_iff.mp hnil) nofun
    have hpos : (trimming tmp).pos.toNat = tmp.items.length :=
      hup.toNat_stop.trans (Nat.zero_add _)
    rw [substr, hpos, if_neg (Nat.lt_irrefl _), List.drop_length, List.take_nil, hnil]
  · have h := trimsInside_of_ne_nil hnil
    have hle : ¬ tmp.items.length < (trimming tmp).pos.toNat := by
      have hwithin := h.within
      omega
    rw [substr, if_neg hle, h.between]

end Loops

/-! ### What is read from a line -/

section Lines

variable {line : StdString} {outside : UInt64 → Char}

private theorem extracted_of_colon (h : ':' ∈ line.val) : extracted line outside =
    .ok (underscored (beforeColon line) outside,
      .sound line.val ((beforeColon line).val.length + 1)) := by
  obtain ⟨a, b, hline, ha⟩ := List.eq_append_cons_of_mem h
  have hname : (beforeColon line).val = a := by
    change line.val.takeWhile (fun c ↦ decide (c ≠ ':')) = a
    rw [hline]
    exact takeWhile_ne_append ha b
  have hget : (IStream.new line.val).clear.getline ':' =
      ((beforeColon line).val, .sound line.val ((beforeColon line).val.length + 1)) := by
    have hsound := IStream.getline_sound (s := line.val) (n := 0) hline ha
    rw [hname, ← Nat.zero_add a.length]
    exact hsound
  unfold extracted
  simp only [hget, IStream.good_sound, if_true, IStream.clear_sound]

private theorem extracted_of_no_colon (h : ':' ∉ line.val) :
    extracted line outside = .error (.oops .badRequest) := by
  have hend := IStream.getline_sound_end (s := line.val) (n := 0) (d := ':') (by simpa using h)
  have hbad : ((IStream.new line.val).clear.getline ':').2.good = false := by
    change ((IStream.sound line.val 0).getline ':').2.good = false
    rw [hend]
    rfl
  unfold extracted
  dsimp only
  rw [hbad]
  rfl

/-- The header that is read is the one that is extracted, and the same is left. -/
theorem Header.read_eq_extract : (Header.read line outside).map (fun r ↦ (r.1, r.2.rest)) =
    (Header.extract line.val).elim (.error (.oops .badRequest)) .ok := by
  unfold Header.read Header.extract
  dsimp only
  by_cases h : ':' ∈ line.val
  · have hitems : (underscored (beforeColon line) outside).items =
        (line.val.takeWhile (· ≠ ':')).map fun c ↦ if c = '-' then '_' else c := rfl
    rw [extracted_of_colon h, if_pos (length_takeWhile_ne_lt_iff.mpr h)]
    simp only [bind, Except.bind, substr_trimming]
    rw [hitems]
    cases Header.find (trim ((line.val.takeWhile (· ≠ ':')).map
      fun c ↦ if c = '-' then '_' else c)) with
    | some h => rfl
    | none => rfl
  · rw [extracted_of_no_colon h, takeWhile_ne_eq_self h, if_neg (Nat.lt_irrefl _)]
    rfl

/-- A line is trimmed inside its name just when something is left of the name. -/
theorem readsInside_iff_nameOf (hcolon : ':' ∈ line.val) :
    ReadsInside line outside ↔ nameOf line.val ≠ [] := by
  have htrim : trim (underscored (beforeColon line) outside).items =
      (nameOf line.val).map fun c ↦ if c = '-' then '_' else c := trim_map isspace_underscored _
  constructor
  · intro h hnil
    refine not_trimsInside_of_eq_nil ?_ (h _ _ (extracted_of_colon hcolon))
    rw [htrim, hnil, List.map_nil]
  · intro hne tmp i hextract
    rw [extracted_of_colon hcolon] at hextract
    cases hextract
    apply trimsInside_of_ne_nil
    rw [htrim]
    exact fun hnil ↦ hne (List.map_eq_nil_iff.mp hnil)

/-- That is when a character that is not white space stands before the colon. -/
theorem readsInside_iff_not_blank (hcolon : ':' ∈ line.val) :
    ReadsInside line outside ↔ ∃ c ∈ (beforeColon line).val, isspace c = false := by
  have hblank : nameOf line.val = [] ↔ ∀ c ∈ (beforeColon line).val, isspace c = true :=
    trim_eq_nil_iff
  rw [readsInside_iff_nameOf hcolon, ne_eq, hblank]
  push Not
  simp only [ne_eq, Bool.not_eq_true]

/-- A name with white space on both sides, and white space all around in memory. -/
theorem readsInside_iff_not_blank_host :
    ReadsInside ⟨" Host : a".toList, by decide⟩ (fun _ ↦ ' ') ↔
      ∃ c ∈ (beforeColon ⟨" Host : a".toList, by decide⟩).val, isspace c = false :=
  readsInside_iff_not_blank (by decide)

/-- A line without a name, which the parser comes upon like any other. -/
theorem not_readsInside_nameless :
    parse none (.new (block ["GET / HTTP/1.1".toList, ": a".toList])) .empty =
      .ok (true, .sound (block ["GET / HTTP/1.1".toList, ": a".toList]) 23,
        ((Hdrs.empty.store "GET / HTTP/1.1".toList).store ": a".toList)) ∧
    ¬ httpVersion <:+: ": a".toList ∧ ':' ∈ ": a".toList ∧
    ∀ outside, ¬ ReadsInside ⟨": a".toList, by decide⟩ outside := by
  refine ⟨rfl, by decide, by decide, fun outside h ↦ ?_⟩
  exact (readsInside_iff_nameOf (by decide)).mp h rfl

end Lines
end Filth
