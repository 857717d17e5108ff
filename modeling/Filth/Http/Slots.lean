import Filth.Http.Printing

/-!
# Which slot a line goes to

`HTTP_parsing::operator>>` looks for the version of the protocol anywhere in a line, and not at
the first line only, `src/HTTP_parsing.cpp:42–54`: a later line that has it in its value replaces
the request line. What has been parsed can be printed and parsed again, since every line that was
kept goes back to the slot it was kept in.
-/

namespace Filth

open Base

/-- What the parser accepts is a block of lines of allowed length. -/
theorem block_of_accepted {max : Limit} {s : Str} {p : Nat} {j : IStream} {g h : Hdrs}
    (hparse : parse max (.sound s p) g = .ok (true, j, h)) :
    ∃ lines, (∀ l ∈ lines, l ≠ [] ∧ '\r' ∉ l) ∧ (∀ l ∈ lines, max.exceeded l.length = false) ∧
      s.drop p = block lines ++ j.rest ∧ h = lines.foldl Hdrs.store g := by
  obtain ⟨hshort, p', rfl, hscan⟩ := scan_of_accepted hparse
  obtain ⟨lines, hlines, htext, rfl⟩ := scan_eq_done hscan
  rw [htext] at hshort
  exact ⟨lines, hlines, exceeded_of_not_overlong hlines hshort, htext, rfl⟩

/-- A block of lines of allowed length is accepted, and what follows it is left. -/
theorem parse_block {max : Limit} {lines : List Str} (hlines : ∀ l ∈ lines, l ≠ [] ∧ '\r' ∉ l)
    (hshort : ∀ l ∈ lines, max.exceeded l.length = false) (rest : Str) (g : Hdrs) :
    parse max (.new (block lines ++ rest)) g =
      .ok (true, .sound (block lines ++ rest) (block lines).length,
        lines.foldl Hdrs.store g) := by
  obtain ⟨p, hp, hrest, heq⟩ := parse_eq_scan (Nat.zero_le _) g
    (not_overlong_block hlines hshort rest)
  rw [List.drop_zero, scan_block hlines] at hrest heq
  have hpos : p = (block lines).length := by
    have hlen := congrArg List.length hrest
    simp only [List.length_drop, List.length_append, Outcome.rest] at hlen hp
    omega
  rw [hpos] at heq
  exact heq

/-! ### The request line and the names -/

section ByName

variable {g : Hdrs} {l : Str} {lines : List Str}

namespace Hdrs

theorem Slotted.mono {P Q : Str → Prop} (hg : g.Slotted P) (h : ∀ l, P l → Q l) : g.Slotted Q :=
  ⟨hg.reqln.imp_right fun hr ↦ ⟨h _ hr.1, hr.2⟩,
    fun hd ↦ (hg.hdr hd).imp_right fun hs ↦ ⟨h _ hs.1, hs.2⟩⟩

/-- A line changes the slot of the request line if the version occurs in it. -/
theorem reqln_store : (g.store l).reqln = if httpVersion <:+: l then l else g.reqln := by
  unfold store
  split
  · rfl
  · split <;> rfl

/-- A line without the version goes to the slot of its name. -/
private theorem hdr_store_of_named (hversion : ¬ httpVersion <:+: l) {hd : Header} {v : Str}
    (hname : Header.extract l = some (hd, v)) : (g.store l).hdr hd = l := by
  rw [store, if_neg hversion, hname]
  exact Function.update_self hd l g.hdr

/-- A line changes no slot but that of its name. -/
private theorem hdr_store_of_not_named {hd : Header}
    (hname : ∀ v, Header.extract l ≠ some (hd, v)) :
    (g.store l).hdr hd = g.hdr hd := by
  unfold store
  split
  · rfl
  · split
    · next hd' v heq =>
      have hne : hd ≠ hd' := by
        rintro rfl
        exact hname v heq
      exact Function.update_of_ne hne l g.hdr
    · rfl

/-- A line with the version in it changes no slot of a header. -/
private theorem hdr_store_of_version (hversion : httpVersion <:+: l) : (g.store l).hdr = g.hdr := by
  rw [store, if_pos hversion]

/-- Lines with other names leave a slot as it is. -/
private theorem hdr_foldl_of_not_named {hd : Header}
    (hnames : ∀ l ∈ lines, ∀ v, Header.extract l ≠ some (hd, v)) :
    (lines.foldl store g).hdr hd = g.hdr hd := by
  induction lines generalizing g with
  | nil => rfl
  | cons l lines ih =>
    rw [List.foldl_cons, ih fun l' hl' ↦ hnames l' (List.mem_cons_of_mem l hl')]
    exact hdr_store_of_not_named (hnames l List.mem_cons_self)

/-- The slot of the request line keeps what it holds if all lines with the version repeat it. -/
private theorem reqln_foldl_of_repeats (h : ∀ l ∈ lines, httpVersion <:+: l → l = g.reqln) :
    (lines.foldl store g).reqln = g.reqln := by
  induction lines generalizing g with
  | nil => rfl
  | cons l lines ih =>
    have hstep : (g.store l).reqln = g.reqln := by
      rw [reqln_store]
      split
      · next hversion => exact h l List.mem_cons_self hversion
      · rfl
    rw [List.foldl_cons, ih, hstep]
    rw [hstep]
    exact fun l' hl' ↦ h l' (List.mem_cons_of_mem l hl')

end Hdrs

/-- Where the lines of a block belong when they are stored in some slots one after the other:
the first is the request line if it names the version, no later one changes the request line, and
every other line with a recognised name is stored under it and stays there until a line of the
same name comes. -/
structure SlotsByName (g : Hdrs) (lines : List Str) : Prop where
  first (l₀ later) (h : lines = l₀ :: later) (hversion : httpVersion <:+: l₀) :
    (lines.foldl Hdrs.store g).reqln = l₀
  kept (l₀ before l after) (h : lines = l₀ :: before ++ l :: after) :
    ((l₀ :: before ++ [l]).foldl Hdrs.store g).reqln =
      ((l₀ :: before).foldl Hdrs.store g).reqln
  stored (before l after) (h : lines = before ++ l :: after)
    (hother : ¬ (before = [] ∧ httpVersion <:+: l)) (hd v)
    (hname : Header.extract l = some (hd, v)) :
    ((before ++ [l]).foldl Hdrs.store g).hdr hd = l ∧
      ((∀ l' ∈ after, ∀ v', Header.extract l' ≠ some (hd, v')) →
        (lines.foldl Hdrs.store g).hdr hd = l)

/-- Behind the first line the version occurs in no line, unless the line is no header and repeats
what the slot of the request line holds after the first line. -/
def VersionFirst (g : Hdrs) (lines : List Str) : Prop :=
  ∀ l₀ later, lines = l₀ :: later → ∀ l ∈ later, httpVersion <:+: l →
    (l = if httpVersion <:+: l₀ then l₀ else g.reqln) ∧ Header.extract l = none

/-- Lines up to one with the version in it, if the version comes first. -/
private theorem reqln_before {l₀ : Str} {before : List Str} (after : List Str)
    (h : VersionFirst g (l₀ :: before ++ after)) :
    ((l₀ :: before).foldl Hdrs.store g).reqln = if httpVersion <:+: l₀ then l₀ else g.reqln := by
  rw [List.foldl_cons, Hdrs.reqln_foldl_of_repeats, Hdrs.reqln_store]
  intro l hl hversion
  rw [Hdrs.reqln_store]
  exact (h l₀ (before ++ after) rfl l (List.mem_append_left after hl) hversion).1

/-- A later line with the version in it moves the request line, unless it repeats that; and it is
never found under a name. -/
theorem SlotsByName.versionFirst {P : Str → Prop} (hg : g.Slotted P) (hs : SlotsByName g lines) :
    VersionFirst g lines := by
  intro l₀ later hlines
  -- the lines with the version, from the front: each repeats the one before it
  suffices h : ∀ before after, later = before ++ after → VersionFirst g (l₀ :: before) by
    intro l hl hversion
    exact h later [] (by simp) l₀ later rfl l hl hversion
  intro before
  induction before using List.reverseRecOn with
  | nil =>
    rintro after - l₁ later₁ heq l hl
    cases heq
    exact absurd hl List.not_mem_nil
  | append_singleton before l ih =>
    intro after hsplit l₁ later₁ heq l' hl' hversion
    cases heq
    have hbefore : VersionFirst g (l₀ :: before) := ih (l :: after) (by simp [hsplit])
    rcases List.mem_append.mp hl' with hl' | hl'
    · exact hbefore l₀ before rfl l' hl' hversion
    · obtain rfl := List.mem_singleton.mp hl'
      have hall : lines = l₀ :: before ++ l' :: after := by simp [hlines, hsplit]
      constructor
      · have hkept := hs.kept l₀ before l' after hall
        rwa [List.foldl_append, List.foldl_cons, List.foldl_nil, Hdrs.reqln_store,
          if_pos hversion, reqln_before [] (by simpa using hbefore)] at hkept
      · -- the slot of its name does not hold it, since that slot holds no such line
        refine Option.eq_none_iff_forall_not_mem.mpr fun p hname ↦ ?_
        have hstored := (hs.stored (l₀ :: before) l' after hall (by simp) p.1 p.2 hname).1
        rw [List.foldl_append, List.foldl_cons, List.foldl_nil,
          Hdrs.hdr_store_of_version hversion] at hstored
        have hany : g.Slotted fun _ ↦ True := hg.mono fun _ _ ↦ trivial
        have hslots := (hany.foldl fun l (_ : l ∈ l₀ :: before) ↦ trivial).hdr p.1
        rw [hstored] at hslots
        rcases hslots with rfl | ⟨-, hno, -⟩
        · exact absurd hversion (by decide)
        · exact hno hversion

/-- When the version comes first, only the first line is tested with success. -/
private theorem VersionFirst.slotsByName (hv : VersionFirst g lines) : SlotsByName g lines := by
  refine ⟨?_, ?_, ?_⟩
  · rintro l₀ later rfl hversion
    have hlast := reqln_before [] (by simpa using hv)
    rwa [if_pos hversion] at hlast
  · rintro l₀ before l after rfl
    rw [List.foldl_append, List.foldl_cons, List.foldl_nil, Hdrs.reqln_store]
    split
    · next hversion =>
      rw [reqln_before _ hv]
      exact (hv l₀ (before ++ l :: after) rfl l (by simp) hversion).1
    · rfl
  · rintro before l after rfl hother hd v hname
    have hversion : ¬ httpVersion <:+: l := by
      intro hversion
      cases before with
      | nil => exact hother ⟨rfl, hversion⟩
      | cons l₀ before =>
        have hnone := (hv l₀ (before ++ l :: after) rfl l (by simp) hversion).2
        rw [hname] at hnone
        cases hnone
    have hstored : ((before ++ [l]).foldl Hdrs.store g).hdr hd = l := by
      rw [List.foldl_append, List.foldl_cons, List.foldl_nil]
      exact Hdrs.hdr_store_of_named hversion hname
    refine ⟨hstored, fun hafter ↦ ?_⟩
    rw [← List.singleton_append, ← List.append_assoc, List.foldl_append,
      Hdrs.hdr_foldl_of_not_named hafter, hstored]

/-- The lines of a block are where they belong just when the version comes first. -/
private theorem slotsByName_iff_versionFirst {P : Str → Prop} (hg : g.Slotted P) :
    SlotsByName g lines ↔ VersionFirst g lines :=
  ⟨SlotsByName.versionFirst hg, VersionFirst.slotsByName⟩

/-- In a block that is accepted, the first line is the request line and all others are kept under
their names just when the version comes first. -/
theorem accepted_slotsByName_iff {P : Str → Prop} (hg : g.Slotted P) {max : Limit} {s : Str}
    {p : Nat} {j : IStream} {h : Hdrs} (hparse : parse max (.sound s p) g = .ok (true, j, h)) :
    ∃ lines, (∀ l ∈ lines, l ≠ [] ∧ '\r' ∉ l) ∧ s.drop p = block lines ++ j.rest ∧
      h = lines.foldl Hdrs.store g ∧ (SlotsByName g lines ↔ VersionFirst g lines) := by
  obtain ⟨lines, hlines, -, htext, hh⟩ := block_of_accepted hparse
  exact ⟨lines, hlines, htext, hh, slotsByName_iff_versionFirst hg⟩

/-- A request whose agent says which version it speaks. -/
def boastfulRequest : List Str := ["GET / HTTP/1.1".toList, "User-Agent: HTTP/1.1".toList]

/-- The request line of such a request is replaced. -/
theorem accepted_slotsByName_iff_boastful :
    ∃ lines, (∀ l ∈ lines, l ≠ [] ∧ '\r' ∉ l) ∧
      (block boastfulRequest).drop 0 = block lines ++
        (IStream.sound (block boastfulRequest) (block boastfulRequest).length).rest ∧
      hdrsOf boastfulRequest = lines.foldl Hdrs.store .empty ∧
      (SlotsByName .empty lines ↔ VersionFirst .empty lines) := by
  have hparse := @parse_block none boastfulRequest (by decide) (by decide)
    [] .empty
  rw [List.append_nil] at hparse
  exact accepted_slotsByName_iff (P := fun _ ↦ True) Hdrs.slotted_empty hparse

/-- The second line of an accepted request is taken for the request line. -/
theorem not_slotsByName_boastful :
    parse none (.new (block boastfulRequest)) .empty =
        .ok (true, .sound (block boastfulRequest) (block boastfulRequest).length,
          hdrsOf boastfulRequest) ∧
      (hdrsOf boastfulRequest).reqln = "User-Agent: HTTP/1.1".toList ∧
      ¬ SlotsByName .empty boastfulRequest := by
  have hreqln : (hdrsOf boastfulRequest).reqln = "User-Agent: HTTP/1.1".toList := by decide
  refine ⟨?_, hreqln, fun hs ↦ ?_⟩
  · have hparse := @parse_block none boastfulRequest (by decide) (by decide)
      [] .empty
    rwa [List.append_nil] at hparse
  · have hfirst := hs.first _ _ rfl (by decide)
    change (hdrsOf boastfulRequest).reqln = _ at hfirst
    rw [hreqln] at hfirst
    exact absurd hfirst (by decide)

end ByName

/-! ### Printing and parsing again -/

/-- Parse a header block into empty slots and print it. -/
def reprint (max : Limit) (i : IStream) : Option Str :=
  match parse max i .empty with
  | .ok (true, _, h) => some h.print
  | _ => none

/-- What a parser produces from any stream, line by line. -/
private theorem slotted_of_accepted {max : Limit} {i j : IStream} {h : Hdrs}
    (hparse : parse max i .empty = .ok (true, j, h)) :
    h.Slotted fun l ↦ '\r' ∉ l ∧ max.exceeded l.length = false := by
  by_cases hgood : i.good = true
  · rw [IStream.eq_sound_of_good hgood] at hparse
    obtain ⟨lines, hlines, hshort, -, rfl⟩ := block_of_accepted hparse
    exact Hdrs.slotted_empty.foldl fun l hl ↦ ⟨(hlines l hl).2, hshort l hl⟩
  · -- no line is read from a stream that has failed or ended
    have hline : i.getline '\r' = ([], { i with fail := true }) := if_neg hgood
    have hh : h = .empty := by
      rw [parse, parseLoop, hline] at hparse
      dsimp only at hparse
      rw [if_neg (by simp)] at hparse
      split at hparse
      · cases hparse
        rfl
      · cases hparse
    rw [hh]
    exact Hdrs.slotted_empty

/-- Parsing undoes printing for all headers that the parser produces, and takes the whole text;
so printing what is parsed from a printed text gives the same text. -/
theorem parse_print {max : Limit} {i j : IStream} {h : Hdrs}
    (hparse : parse max i .empty = .ok (true, j, h)) :
    parse max (.new h.print) .empty = .ok (true, .sound h.print h.print.length, h) ∧
      ∀ t, reprint max i = some t → reprint max (.new t) = some t := by
  have hslots := slotted_of_accepted hparse
  have hback : parse max (.new h.print) .empty =
      .ok (true, .sound h.print h.print.length, h) := by
    have hblock := parse_block (fun l hl ↦ ⟨(hslots.forall_lines l hl).1,
      (hslots.forall_lines l hl).2.1⟩) (fun l hl ↦ (hslots.forall_lines l hl).2.2) [] .empty
    rwa [List.append_nil, hslots.foldl_lines, ← Hdrs.print_eq_block] at hblock
  refine ⟨hback, fun t ht ↦ ?_⟩
  rw [reprint, hparse] at ht
  cases ht
  rw [reprint, hback]

/-- Lines that are not in the order of the slots, one of them twice and one unknown, with colons,
blanks and a line feed in them. -/
def oddResponse : List Str :=
  ["HTTP/1.1 200 OK".toList, " Host : a:b\n".toList, "X: 1".toList, "Age: 1".toList,
    "Age: 2".toList]

/-- They are printed in order and parsed again. -/
theorem parse_print_odd :
    parse none (.new (hdrsOf oddResponse).print) .empty =
        .ok (true, .sound (hdrsOf oddResponse).print (hdrsOf oddResponse).print.length,
          hdrsOf oddResponse) ∧
      ∀ t, reprint none (.new (block oddResponse ++ "body".toList)) = some t →
        reprint none (.new t) = some t :=
  parse_print (@parse_block none oddResponse (by decide) (by decide) "body".toList .empty)

example : (hdrsOf oddResponse).lines =
    ["HTTP/1.1 200 OK".toList, " Host : a:b\n".toList, "Age: 2".toList] := by decide

end Filth
