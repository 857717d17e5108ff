import Filth.Http.Constants

/-!
# Escapes in a URI

`HTTP_Server_Work::uri_hex_escape`, `src/HTTP_Server_Work.cpp:217–232`, which nobody calls yet. All
escapes go through one stream. A number that takes what is in the stream leaves it at its end, and
after that nothing is put in or taken out any more; and the search for the next escape begins at the
character that the last one has been replaced by.
-/

namespace Filth

open Base

/-- The value of a hexadecimal digit. -/
def hexDigit? (c : Char) : Option Nat :=
  if c.isDigit then some (c.toNat - '0'.toNat)
  else if 'a' ≤ c ∧ c ≤ 'f' then some (c.toNat - 'a'.toNat + 10)
  else if 'A' ≤ c ∧ c ≤ 'F' then some (c.toNat - 'A'.toNat + 10)
  else none

/-- `isxdigit` -/
def isxdigit (c : Char) : Bool := (hexDigit? c).isSome

/-- Value of a string of hexadecimal digits. -/
def hexValue (s : Str) : Nat := s.foldl (fun n c ↦ 16 * n + (hexDigit? c).getD 0) 0

/-- The stream: what has not been read yet, and whether it is good. -/
structure HexBuf where
  unread : Str
  good : Bool
  deriving DecidableEq, Repr

namespace HexBuf

/-- `hexbuf << c`, which does nothing on a stream that is not good. -/
def put (b : HexBuf) (c : Char) : HexBuf :=
  if b.good then { b with unread := b.unread ++ [c] } else b

/-- A sign, and what is behind it. -/
def sign : Str → Bool × Str
  | '-' :: s => (true, s)
  | '+' :: s => (false, s)
  | s => (false, s)

/-- What is behind `0x`, where that stands. -/
def dropBase : Str → Str
  | '0' :: 'x' :: s => s
  | '0' :: 'X' :: s => s
  | s => s

/-- A number with its sign. -/
def signed (neg : Bool) (n : Nat) : Int := if neg then -n else n

/-- The digits at the front of a text. Without any the number is zero and the stream has failed, and
a number that reaches the end leaves the stream there. There are never more than three digits. -/
def number (neg : Bool) (s : Str) : Int × HexBuf :=
  let digits := s.takeWhile isxdigit
  let unread := s.dropWhile isxdigit
  if digits = [] then (0, ⟨unread, false⟩)
  else (signed neg (hexValue digits), ⟨unread, !unread.isEmpty⟩)

/-- `hexbuf >> hex >> c`, `src/HTTP_Server_Work.cpp:227`. If the stream is not good or has nothing
but white space, `c` stays what it is. -/
def get (b : HexBuf) (c : Int) : Int × HexBuf :=
  if b.good then
    match b.unread.dropWhile isspace with
    | [] => (c, ⟨[], false⟩)
    | s => number (sign s).1 (dropBase (sign s).2)
  else (c, b)

end HexBuf

/-- `(char) c` -/
def toChar (c : Int) : Char := Char.ofNat (c % 256).toNat

/-- `uri.find('%', start)` -/
def findPercent (uri : Str) (start : Nat) : Option Nat :=
  ((uri.drop start).findIdx? (· == '%')).map (start + ·)

/-- The loop of `uri_hex_escape`, `src/HTTP_Server_Work.cpp:224–230`. -/
def hexLoop (uri : Str) (start : Nat) (hexbuf : HexBuf) (c : Int) : Except Status Str :=
  match findPercent uri start with
  | none => .ok uri
  | some start =>
    if h : uri.length ≤ start + 2 then .error .badRequest
    else
      let next := ((hexbuf.put uri[start + 1]).put uri[start + 2]).get c
      hexLoop (uri.take start ++ toChar next.1 :: uri.drop (start + 3)) start next.2 next.1
termination_by uri.length
decreasing_by
  simp only [List.length_append, List.length_take, List.length_cons, List.length_drop]
  omega

/-- `uri_hex_escape`, `src/HTTP_Server_Work.cpp:218–232`. Nothing has been assigned to `c`, so it
may be anything at first. -/
def uriHexEscape (junk : Int) (uri : Str) : Except Status Str := hexLoop uri 0 ⟨[], true⟩ junk

/-! ### What is asked for -/

/-- Every percent sign is followed by two hexadecimal digits. -/
def Escaped (uri : Str) : Prop := ∀ before after, uri = before ++ '%' :: after →
  ∃ x y rest, after = x :: y :: rest ∧ isxdigit x = true ∧ isxdigit y = true

/-- One pass from left to right, that replaces every percent sign and the two characters behind
it. -/
def replaceEach (f : Char → Char → Char) : Str → Str
  | '%' :: x :: y :: rest => f x y :: replaceEach f rest
  | c :: rest => c :: replaceEach f rest
  | [] => []

/-- Every escape is replaced by the byte that it stands for. -/
def percentDecode : Str → Str := replaceEach fun x y ↦ Char.ofNat (hexValue [x, y])

/-- A URI that is not well-formed is refused, and any other one is decoded. -/
structure DecodesRight (junk : Int) (uri : Str) : Prop where
  refused : ¬ Escaped uri → uriHexEscape junk uri = .error .badRequest
  decoded : Escaped uri → uriHexEscape junk uri = .ok (percentDecode uri)

/-! ### What is done -/

/-- The pairs of characters behind percent signs, each taken together with its sign. -/
def escapes : Str → List (Char × Char)
  | '%' :: x :: y :: rest => (x, y) :: escapes rest
  | _ :: rest => escapes rest
  | [] => []

/-- One of these signs stands too near to the end. -/
def cutShort : Str → Bool
  | '%' :: _ :: _ :: rest => cutShort rest
  | '%' :: _ => true
  | _ :: rest => cutShort rest
  | [] => false

/-- What may stand before a number. -/
def leads (c : Char) : Bool := isspace c || c == '-' || c == '+'

/-- A pair is read as a percent sign: behind a minus sign, otherwise, or because it is blank and
there was a percent sign in `c` from the start. -/
def PercentPair (junk : Int) (lead : Option Char) (x y : Char) : Prop :=
  isxdigit x = true ∧ isxdigit y = true ∧
      hexValue [x, y] = (if lead = some '-' then 0xdb else 0x25) ∨
    lead = none ∧ isspace x = true ∧ isspace y = true ∧ junk % 256 = 0x25

/-- Some pair is read as a percent sign, and those before it leave the stream in a good state: they
are a digit and a character that is left there and may stand before a number. -/
def ReadsPercent (junk : Int) : Option Char → List (Char × Char) → Prop
  | _, [] => False
  | lead, (x, y) :: pairs => (∀ l, lead = some l → leads l = true) ∧
      (PercentPair junk lead x y ∨
        isxdigit x = true ∧ isxdigit y = false ∧ ReadsPercent junk (some y) pairs)

/-- A well-formed URI has the same escape everywhere, which is not that of the percent sign. In any
other URI a percent sign stands too near to the end, or one is read from the stream. -/
def Decodable (junk : Int) (uri : Str) : Prop :=
  (Escaped uri → ∀ p ∈ escapes uri, hexValue [p.1, p.2] ≠ 0x25 ∧
    ∀ q ∈ escapes uri, hexValue [q.1, q.2] = hexValue [p.1, p.2]) ∧
  (¬ Escaped uri → cutShort uri = true ∨ ReadsPercent junk none (escapes uri))

/-! ### The loop -/

section Loop

variable {head rest : Str} {b : HexBuf} {v : Int} {c x y : Char}

private theorem findPercent_of_forall (h : '%' ∉ rest) (head : Str) :
    findPercent (head ++ rest) head.length = none := by
  rw [findPercent, List.drop_left, List.findIdx?_eq_none_iff.mpr, Option.map_none]
  intro c hc
  rw [beq_eq_false_iff_ne]
  rintro rfl
  exact h hc

private theorem findPercent_here (head rest : Str) :
    findPercent (head ++ '%' :: rest) head.length = some head.length := by
  simp [findPercent, List.findIdx?_cons]

private theorem findPercent_skip (hc : c ≠ '%') (head rest : Str) :
    findPercent (head ++ c :: rest) head.length =
      findPercent (head ++ [c] ++ rest) (head ++ [c]).length := by
  have hassoc : head ++ c :: rest = head ++ [c] ++ rest := by simp
  rw [findPercent, findPercent, List.drop_left, List.drop_left, List.findIdx?_cons,
    if_neg (by simpa using hc), Option.map_map, List.length_append]
  congr 1
  funext i
  simp only [Function.comp_apply, List.length_singleton]
  omega

private theorem hexLoop_end (head : Str) (b : HexBuf) (v : Int) :
    hexLoop head head.length b v = .ok head := by
  have hfind : findPercent (head ++ []) head.length = none :=
    findPercent_of_forall List.not_mem_nil head
  rw [List.append_nil] at hfind
  rw [hexLoop, hfind]

/-- Other characters are passed over. -/
theorem hexLoop_skip (hc : c ≠ '%') (head rest : Str) (b : HexBuf) (v : Int) :
    hexLoop (head ++ c :: rest) head.length b v =
      hexLoop (head ++ [c] ++ rest) (head ++ [c]).length b v := by
  have hassoc : head ++ c :: rest = head ++ [c] ++ rest := by simp
  rw [hexLoop, findPercent_skip hc, hexLoop]
  rw [hassoc]

private theorem length_lt_two (h : ∀ x y rest', rest ≠ x :: y :: rest') : rest.length < 2 := by
  rcases rest with _ | ⟨x, _ | ⟨y, rest⟩⟩
  · simp
  · simp
  · exact absurd rfl (h x y rest)

/-- A percent sign that stands too near to the end. -/
theorem hexLoop_short (hrest : rest.length < 2) (head : Str) (b : HexBuf) (v : Int) :
    hexLoop (head ++ '%' :: rest) head.length b v = .error .badRequest := by
  have hlen : (head ++ '%' :: rest).length ≤ head.length + 2 := by
    simp only [List.length_append, List.length_cons]
    omega
  rw [hexLoop, findPercent_here]
  exact dif_pos hlen

/-- An escape is replaced, and the search goes on at what has come in its place. -/
theorem hexLoop_escape (head rest : Str) (x y : Char) (b : HexBuf) (v : Int) :
    hexLoop (head ++ '%' :: x :: y :: rest) head.length b v =
      hexLoop (head ++ toChar (((b.put x).put y).get v).1 :: rest) head.length
        (((b.put x).put y).get v).2 (((b.put x).put y).get v).1 := by
  have hlen : ¬ (head ++ '%' :: x :: y :: rest).length ≤ head.length + 2 := by
    simp only [List.length_append, List.length_cons]
    omega
  rw [hexLoop, findPercent_here]
  dsimp only
  rw [dif_neg hlen]
  simp

/-! ### A stream that is not good -/

private theorem get_put_of_not_good (hb : b.good = false) (x y : Char) (v : Int) :
    ((b.put x).put y).get v = (v, b) := by
  simp [HexBuf.put, HexBuf.get, hb]

/-- A percent sign comes in the place of every percent sign, until one stands too near to the
end. -/
theorem hexLoop_percent (hb : b.good = false) (hv : toChar v = '%') (head : Str) : ∀ rest : Str,
    hexLoop (head ++ '%' :: rest) head.length b v = .error .badRequest
  | [] => hexLoop_short (by simp) head b v
  | [_] => hexLoop_short (by simp) head b v
  | x :: y :: rest => by
    rw [hexLoop_escape, get_put_of_not_good hb, hv]
    exact hexLoop_percent hb hv head rest

/-- The same character comes in the place of all escapes. -/
theorem hexLoop_of_not_good (hb : b.good = false) (hv : toChar v ≠ '%') (head rest : Str) :
    hexLoop (head ++ rest) head.length b v =
      if cutShort rest = true then .error .badRequest
      else .ok (head ++ replaceEach (fun _ _ ↦ toChar v) rest) := by
  fun_induction cutShort rest generalizing head with
  | case1 x y rest ih =>
    rw [hexLoop_escape, get_put_of_not_good hb, hexLoop_skip hv, ih]
    simp [replaceEach]
  | case2 rest hrest =>
    rw [if_pos rfl]
    exact hexLoop_short (length_lt_two hrest) head b v
  | case3 c rest h₁ h₂ ih =>
    have hc : c ≠ '%' := fun hc ↦ h₂ hc
    rw [hexLoop_skip hc, ih, replaceEach]
    · simp
    · exact h₁
  | case4 => simp [hexLoop_end, replaceEach]

end Loop

/-! ### A good stream -/

namespace HexBuf

variable {s : Str} {l x y : Char} {v : Int}

private theorem not_isxdigit_of_leads (h : leads l = true) : isxdigit l = false := by
  simp only [leads, isspace, List.mem_cons, List.not_mem_nil, or_false, Bool.or_eq_true,
    decide_eq_true_eq, beq_iff_eq] at h
  rcases h with ((rfl | rfl | rfl | rfl | rfl | rfl) | rfl) | rfl <;> decide

private theorem leads_eq_false_iff : leads x = false ↔ isspace x = false ∧ x ≠ '-' ∧ x ≠ '+' := by
  simp [leads, and_assoc]

private theorem not_leads_of_isxdigit (h : isxdigit x = true) :
    isspace x = false ∧ x ≠ '-' ∧ x ≠ '+' := by
  apply leads_eq_false_iff.mp
  by_contra hleads
  rw [not_isxdigit_of_leads (Bool.eq_true_of_not_eq_false hleads)] at h
  cases h

private theorem hexDigit_lt (c : Char) : (hexDigit? c).getD 0 < 16 := by
  unfold hexDigit?
  split
  · next h =>
    have h₁ := (Char.isDigit_iff_toNat.mp h).2
    simp only [Option.getD_some, Char.reduceToNat] at h₁ ⊢
    omega
  · split
    · next h =>
      have h₁ : 97 ≤ c.toNat := h.1
      have h₂ : c.toNat ≤ 102 := h.2
      simp only [Option.getD_some, Char.reduceToNat]
      omega
    · split
      · next h =>
        have h₁ : 65 ≤ c.toNat := h.1
        have h₂ : c.toNat ≤ 70 := h.2
        simp only [Option.getD_some, Char.reduceToNat]
        omega
      · decide

private theorem number_of_head (h : ∀ c, s.head? = some c → isxdigit c = false) (neg : Bool) :
    number neg s = (0, ⟨s, false⟩) := by
  have hfalse : s.takeWhile isxdigit = [] ∧ s.dropWhile isxdigit = s := by
    cases s with
    | nil => simp
    | cons c s => simp [h c rfl]
  rw [number, hfalse.1, hfalse.2, if_pos rfl]

private theorem number_pair (hx : isxdigit x = true) (hy : isxdigit y = true) (neg : Bool) :
    number neg [x, y] = (signed neg (hexValue [x, y]), ⟨[], false⟩) := by
  simp [number, hx, hy]

private theorem number_digit (hx : isxdigit x = true) (hy : isxdigit y = false) (neg : Bool) :
    number neg [x, y] = (signed neg (hexValue [x]), ⟨[y], true⟩) := by
  simp [number, hx, hy]

/-- One character at the end. -/
theorem number_last (neg : Bool) (y : Char) :
    (number neg [y]).2.good = false ∧ (number neg [y]).1.natAbs < 16 := by
  have hlt := hexDigit_lt y
  by_cases hy : isxdigit y = true
  · cases neg <;> simp [number, hy, signed, hexValue, hlt]
  · simp [number, hy]

/-- What can become of a pair that is put behind what has been left in a good stream. -/
inductive Reads (lead : Option Char) (x y : Char) (v : Int) : Int × HexBuf → Prop where
  | stays {n} (hlead : ∀ l, lead = some l → leads l = true) (hx : isxdigit x = true)
      (hy : isxdigit y = false) (hn : n.natAbs < 16) : Reads lead x y v (n, ⟨[y], true⟩)
  | pair {b} (hlead : ∀ l, lead = some l → leads l = true) (hx : isxdigit x = true)
      (hy : isxdigit y = true) (hb : b.good = false) :
      Reads lead x y v (signed (lead = some '-') (hexValue [x, y]), b)
  | blank {b} (hlead : ∀ l, lead = some l → isspace l = true) (hx : isspace x = true)
      (hy : isspace y = true) (hb : b.good = false) : Reads lead x y v (v, b)
  | bad {n b} (hlead : ∃ l, lead = some l ∧ leads l = false) (hn : n.natAbs < 16)
      (hb : b.good = false) : Reads lead x y v (n, b)
  | other {n b} (hx : isxdigit x = false)
      (hblank : lead = none → ¬ (isspace x = true ∧ isspace y = true)) (hn : n.natAbs < 16)
      (hb : b.good = false) : Reads lead x y v (n, b)
  | unprefixed {n b} (hy : isxdigit y = false) (hy' : leads y = false) (hn : n.natAbs < 16)
      (hb : b.good = false) : Reads lead x y v (n, b)

private theorem dropBase_of_head (h : ∀ c, s.head? = some c → isxdigit c = false) :
    dropBase s = s := by
  unfold dropBase
  split
  · exact absurd (h '0' rfl) (by decide)
  · exact absurd (h '0' rfl) (by decide)
  · rfl

private theorem dropBase_last (y : Char) : dropBase [y] = [y] := by
  unfold dropBase
  split
  · next heq => simp at heq
  · next heq => simp at heq
  · rfl

private theorem dropBase_pair (x y : Char) :
    dropBase [x, y] = [x, y] ∨ dropBase [x, y] = [] ∧ (y = 'x' ∨ y = 'X') := by
  unfold dropBase
  split
  · next heq =>
    simp only [List.cons.injEq] at heq
    exact .inr ⟨heq.2.2.symm, .inl heq.2.1⟩
  · next heq =>
    simp only [List.cons.injEq] at heq
    exact .inr ⟨heq.2.2.symm, .inr heq.2.1⟩
  · exact .inl rfl

private theorem sign_of_ne {s : Str} (h : ∀ c, s.head? = some c → c ≠ '-' ∧ c ≠ '+') :
    sign s = (false, s) := by
  unfold sign
  split
  · exact absurd rfl (h '-' rfl).1
  · exact absurd rfl (h '+' rfl).2
  · rfl

variable {lead : Option Char}

/-- A pair behind a sign, or without one. -/
theorem reads_number (hlead : ∀ l, lead = some l → leads l = true)
    (hblank : lead = none → ¬ (isspace x = true ∧ isspace y = true)) (v : Int) :
    Reads lead x y v (number (lead = some '-') (dropBase [x, y])) := by
  by_cases hx : isxdigit x = true
  · rcases dropBase_pair x y with hpre | ⟨hpre, hy⟩
    · rw [hpre]
      by_cases hy : isxdigit y = true
      · rw [number_pair hx hy]
        exact .pair hlead hx hy rfl
      · rw [Bool.not_eq_true] at hy
        rw [number_digit hx hy]
        refine .stays hlead hx hy ?_
        have hlt := hexDigit_lt x
        unfold signed
        split <;> simpa [hexValue] using hlt
    · rw [hpre, number_of_head (by simp)]
      rcases hy with rfl | rfl <;> exact .unprefixed (by decide) (by decide) (by decide) rfl
  · rw [Bool.not_eq_true] at hx
    have hhead : ∀ c, [x, y].head? = some c → isxdigit c = false := by simpa using hx
    rw [dropBase_of_head hhead, number_of_head hhead]
    exact .other hx hblank (by decide) rfl

/-- A pair behind white space, or with nothing before it. -/
theorem reads_front (hlead : ∀ l, lead = some l → isspace l = true)
    (hs : s.dropWhile isspace = [x, y].dropWhile isspace) (v : Int) :
    Reads lead x y v (get ⟨s, true⟩ v) := by
  have hleads : ∀ l, lead = some l → leads l = true := by
    intro l hl
    simp [leads, hlead l hl]
  have hminus : lead ≠ some '-' := fun hl ↦ absurd (hlead '-' hl) (by decide)
  have hlast (neg : Bool) (hx : isxdigit x = false)
      (hblank : ¬ (isspace x = true ∧ isspace y = true)) :
      Reads lead x y v (number neg (dropBase [y])) := by
    rw [dropBase_last]
    exact .other hx (fun _ ↦ hblank) (number_last neg y).2 (number_last neg y).1
  by_cases hx : isspace x = true
  · have hx' : isxdigit x = false := not_isxdigit_of_leads (by simp [leads, hx])
    by_cases hy : isspace y = true
    · have hnil : s.dropWhile isspace = [] := by simp [hs, hx, hy]
      simp only [get, if_true, hnil]
      exact .blank hlead hx hy rfl
    · have hrest : s.dropWhile isspace = [y] := by simp [hs, hx, hy]
      have hblank : ¬ (isspace x = true ∧ isspace y = true) := fun h ↦ hy h.2
      simp only [get, if_true, hrest]
      by_cases hy' : y = '-' ∨ y = '+'
      · rcases hy' with rfl | rfl
        · exact .other hx' (fun _ ↦ hblank) (by decide) rfl
        · exact .other hx' (fun _ ↦ hblank) (by decide) rfl
      · rw [sign_of_ne (by simpa [not_or] using hy')]
        exact hlast false hx' hblank
  · have hrest : s.dropWhile isspace = [x, y] := by simp [hs, hx]
    have hblank : ¬ (isspace x = true ∧ isspace y = true) := fun h ↦ hx h.1
    simp only [get, if_true, hrest]
    by_cases hx' : x = '-' ∨ x = '+'
    · rcases hx' with rfl | rfl
      · exact hlast true (by decide) hblank
      · exact hlast false (by decide) hblank
    · rw [sign_of_ne (by simpa [not_or] using hx')]
      have hnumber := reads_number hleads (fun _ ↦ hblank) v
      rwa [decide_eq_false hminus] at hnumber

/-- A pair behind what may have been left. -/
private theorem reads_get (hlead : ∀ l, lead = some l → isxdigit l = false) (x y : Char) (v : Int) :
    Reads lead x y v (get ⟨lead.toList ++ [x, y], true⟩ v) := by
  cases lead with
  | none => exact reads_front (by simp) rfl v
  | some l =>
    by_cases hl : leads l = true
    · have hleads : ∀ k, some l = some k → leads k = true := by
        intro k hk
        cases hk
        exact hl
      simp only [leads, Bool.or_eq_true, beq_iff_eq] at hl
      rcases hl with (hspace | rfl) | rfl
      · refine reads_front (fun k hk ↦ Option.some.inj hk ▸ hspace) ?_ v
        simp [hspace]
      · exact reads_number hleads nofun v
      · exact reads_number hleads nofun v
    · rw [Bool.not_eq_true] at hl
      have hhead : ∀ c, (l :: [x, y]).head? = some c → isxdigit c = false := by
        intro c hc
        exact hlead c hc
      have hl' := leads_eq_false_iff.mp hl
      have hrest : (l :: [x, y]).dropWhile isspace = l :: [x, y] := by simp [hl'.1]
      have hsign : sign (l :: [x, y]) = (false, l :: [x, y]) := by
        refine sign_of_ne fun c hc ↦ ?_
        cases hc
        exact hl'.2
      simp only [Option.toList_some, List.singleton_append, get, if_true, hrest, hsign,
        dropBase_of_head hhead, number_of_head hhead]
      exact .bad ⟨l, rfl, hl⟩ (by decide) rfl

end HexBuf

/-! ### Bytes -/

private theorem hexValue_lt (x y : Char) : hexValue [x, y] < 256 := by
  have hx := HexBuf.hexDigit_lt x
  have hy := HexBuf.hexDigit_lt y
  simp only [hexValue, List.foldl_cons, List.foldl_nil]
  omega

private theorem toNat_byte {n : Nat} (h : n < 256) : (Char.ofNat n).toNat = n := by
  have hvalid : n.isValidChar := .inl (by omega)
  rw [Char.toNat_ofNat, if_pos hvalid]

private theorem toChar_eq_percent_iff (c : Int) : toChar c = '%' ↔ c % 256 = 0x25 := by
  have hlt : (c % 256).toNat < 256 := by omega
  constructor
  · intro h
    have hnat := congrArg Char.toNat h
    rw [toChar, toNat_byte hlt] at hnat
    simp only [Char.reduceToNat] at hnat
    omega
  · intro h
    rw [toChar, h]
    decide

private theorem toChar_hexValue (x y : Char) :
    toChar (hexValue [x, y]) = Char.ofNat (hexValue [x, y]) := by
  have hlt := hexValue_lt x y
  have hmod : ((hexValue [x, y] : Int) % 256).toNat = hexValue [x, y] := by omega
  rw [toChar, hmod]

/-- The pair is read as a percent sign, with a minus sign before it or without. -/
private theorem signed_eq_percent_iff (neg : Bool) (x y : Char) :
    HexBuf.signed neg (hexValue [x, y]) % 256 = 0x25 ↔
      hexValue [x, y] = if neg then 0xdb else 0x25 := by
  have hlt := hexValue_lt x y
  cases neg <;> simp only [HexBuf.signed, if_true, Bool.false_eq_true, if_false] <;> omega

/-! ### Which URIs are refused -/

section Refused

variable {head rest : Str} {b : HexBuf} {junk v n : Int} {lead : Option Char} {x y : Char}
  {pairs : List (Char × Char)}

private theorem put_put (s : Str) (x y : Char) :
    (HexBuf.put ⟨s, true⟩ x).put y = ⟨s ++ [x, y], true⟩ := by
  simp [HexBuf.put]

/-- The last character that comes out of the stream. -/
theorem hexLoop_eq_error_iff_of_not_good (hb : b.good = false) (head rest : Str) (n : Int) :
    hexLoop (head ++ toChar n :: rest) head.length b n = .error .badRequest ↔
      cutShort rest = true ∨ n % 256 = 0x25 := by
  rw [← toChar_eq_percent_iff]
  by_cases hn : toChar n = '%'
  · rw [hn]
    exact iff_of_true (hexLoop_percent hb hn head rest) (.inr rfl)
  · rw [hexLoop_skip hn, hexLoop_of_not_good hb hn, or_iff_left hn]
    split
    · next hcut => exact iff_of_true rfl hcut
    · next hcut => exact iff_of_false nofun hcut

/-- Where the percent sign comes from, case by case. -/
private theorem readsPercent_cons_iff {b : HexBuf} (h : HexBuf.Reads lead x y v (n, b))
    (hb : b.good = false) (hv : lead = none → v = junk) (hv' : lead ≠ none → v % 256 ≠ 0x25)
    (pairs : List (Char × Char)) :
    ReadsPercent junk lead ((x, y) :: pairs) ↔ n % 256 = 0x25 := by
  cases h with
  | stays => cases hb
  | pair hlead hx hy =>
    have hspace := (HexBuf.not_leads_of_isxdigit hx).1
    rw [signed_eq_percent_iff, ReadsPercent, PercentPair]
    simp only [hx, hy, hspace, decide_eq_true_eq]
    simpa using fun _ ↦ hlead
  | blank hlead hx hy =>
    have hx' : isxdigit x = false := HexBuf.not_isxdigit_of_leads (by simp [leads, hx])
    have hleads : ∀ l, lead = some l → leads l = true := fun l hl ↦ by simp [leads, hlead l hl]
    rw [ReadsPercent, PercentPair]
    cases lead with
    | none => simp [hx, hx', hy, hv rfl]
    | some l => simpa [hx'] using hv' (by simp)
  | bad hlead hn =>
    obtain ⟨l, rfl, hl⟩ := hlead
    have hsmall : n % 256 ≠ 0x25 := by omega
    simp [ReadsPercent, hl, hsmall]
  | other hx hblank hn =>
    have hsmall : n % 256 ≠ 0x25 := by omega
    have hnone : ¬ (lead = none ∧ isspace x = true ∧ isspace y = true ∧ junk % 256 = 0x25) :=
      fun ⟨hl, hx, hy, _⟩ ↦ hblank hl ⟨hx, hy⟩
    simp only [ReadsPercent, PercentPair, hx, hnone, hsmall]
    simp
  | unprefixed hy hy' hn =>
    have hsmall : n % 256 ≠ 0x25 := by omega
    have hy'' : isspace y = false := (HexBuf.leads_eq_false_iff.mp hy').1
    have hend : ¬ ReadsPercent junk (some y) pairs := by
      cases pairs <;> simp [ReadsPercent, hy']
    simp [ReadsPercent, PercentPair, hy, hy'', hend, hsmall]

/-- What is refused, with the stream in a good state. -/
private theorem hexLoop_eq_error_iff (hlead : ∀ l, lead = some l → isxdigit l = false)
    (hv : lead = none → v = junk) (hv' : lead ≠ none → v % 256 ≠ 0x25) (head rest : Str) :
    hexLoop (head ++ rest) head.length ⟨lead.toList, true⟩ v = .error .badRequest ↔
      cutShort rest = true ∨ ReadsPercent junk lead (escapes rest) := by
  fun_induction cutShort rest generalizing head lead v with
  | case1 x y rest ih =>
    have hreads := HexBuf.reads_get hlead x y v
    rw [hexLoop_escape, put_put, escapes]
    generalize HexBuf.get ⟨lead.toList ++ [x, y], true⟩ v = r at hreads ⊢
    obtain ⟨n, b⟩ := r
    by_cases hb : b.good = true
    · cases hreads with
      | stays hleads hx hy hn =>
        have hsmall : n % 256 ≠ 0x25 := by omega
        have hspace := (HexBuf.not_leads_of_isxdigit hx).1
        have hrest : hexLoop (head ++ [toChar n] ++ rest) (head ++ [toChar n]).length
            ⟨(some y).toList, true⟩ n = .error .badRequest ↔
              cutShort rest = true ∨ ReadsPercent junk (some y) (escapes rest) :=
          ih (by simpa using hy) (by simp) (fun _ ↦ hsmall) (head ++ [toChar n])
        rw [hexLoop_skip (mt (toChar_eq_percent_iff n).mp hsmall)]
        refine hrest.trans (or_congr_right ?_)
        simp [ReadsPercent, PercentPair, hx, hy, hspace]
        exact fun _ ↦ hleads
      | pair _ _ _ hb' | blank _ _ _ hb' | bad _ _ hb' | other _ _ _ hb' | unprefixed _ _ _ hb' =>
        cases hb.symm.trans hb'
    · rw [Bool.not_eq_true] at hb
      rw [hexLoop_eq_error_iff_of_not_good hb, readsPercent_cons_iff hreads hb hv hv']
  | case2 rest hrest =>
    exact iff_of_true (hexLoop_short (length_lt_two hrest) head _ v) (.inl rfl)
  | case3 c rest h₁ h₂ ih =>
    have hc : c ≠ '%' := fun hc ↦ h₂ hc
    rw [hexLoop_skip hc, ih hlead hv hv', escapes]
    exact h₁
  | case4 =>
    rw [List.append_nil, hexLoop_end]
    simp [escapes, ReadsPercent]

end Refused

/-! ### What becomes of a well-formed URI -/

section Decoded

variable {head rest s : Str} {c x y : Char}

private theorem escaped_nil : Escaped [] := fun before after heq ↦ by simp at heq

private theorem escaped_cons_iff : Escaped (c :: rest) ↔
    (c = '%' → ∃ x y rest', rest = x :: y :: rest' ∧
    isxdigit x = true ∧ isxdigit y = true) ∧ Escaped rest := by
  constructor
  · intro h
    constructor
    · rintro rfl
      exact h [] rest rfl
    · exact fun before after heq ↦ h (c :: before) after (by rw [heq, List.cons_append])
  · rintro ⟨hc, hrest⟩ before after heq
    cases before with
    | nil =>
      cases heq
      exact hc rfl
    | cons d before =>
      cases heq
      exact hrest before after rfl

private theorem Escaped.of_cons (h : Escaped (c :: rest)) : Escaped rest :=
    (escaped_cons_iff.mp h).2

private theorem Escaped.of_escape (h : Escaped ('%' :: x :: y :: rest)) :
    isxdigit x = true ∧ isxdigit y = true ∧ Escaped rest := by
  obtain ⟨x', y', rest', heq, hx, hy⟩ := (escaped_cons_iff.mp h).1 rfl
  cases heq
  exact ⟨hx, hy, h.of_cons.of_cons.of_cons⟩

private theorem Escaped.not_cutShort (h : Escaped s) : cutShort s = false := by
  fun_induction cutShort s with
  | case1 x y rest ih => exact ih h.of_escape.2.2
  | case2 rest hrest =>
    obtain ⟨x, y, rest', heq, -⟩ := (escaped_cons_iff.mp h).1 rfl
    exact absurd heq (hrest x y rest')
  | case3 c rest h₁ h₂ ih => exact ih h.of_cons
  | case4 => rfl

/-- Two ways to replace escapes come to the same if they agree on those that are there. -/
private theorem replaceEach_eq_iff (f g : Char → Char → Char) (s : Str) :
    replaceEach f s = replaceEach g s ↔ ∀ p ∈ escapes s, f p.1 p.2 = g p.1 p.2 := by
  fun_induction escapes s with
  | case1 x y rest ih =>
    rw [replaceEach, replaceEach, List.cons.injEq, List.forall_mem_cons, ih]
  | case2 c rest hc ih =>
    rw [replaceEach, replaceEach, List.cons.injEq, ih]
    · exact and_iff_right rfl
    · exact hc
    · exact hc
  | case3 => simp [replaceEach]

/-- An escape that is the first one takes the stream to its end. -/
private theorem get_pair (hx : isxdigit x = true) (hy : isxdigit y = true) (v : Int) :
    HexBuf.get ⟨[x, y], true⟩ v = ((hexValue [x, y] : Int), ⟨[], false⟩) := by
  have hspace := HexBuf.not_leads_of_isxdigit hx
  have hpre : HexBuf.dropBase [x, y] = [x, y] := by
    rcases HexBuf.dropBase_pair x y with hpre | ⟨-, rfl | rfl⟩
    · exact hpre
    · exact absurd hy (by decide)
    · exact absurd hy (by decide)
  have hsign : HexBuf.sign [x, y] = (false, [x, y]) := by
    refine HexBuf.sign_of_ne fun c hc ↦ ?_
    cases hc
    exact hspace.2
  have hdrop : [x, y].dropWhile isspace = [x, y] := by simp [hspace.1]
  simp only [HexBuf.get, if_true, hdrop, hsign, hpre, HexBuf.number_pair hx hy]
  rfl

/-- Values of pairs and the characters that they stand for. -/
private theorem toChar_eq_iff (p q : Char × Char) :
    toChar (hexValue [p.1, p.2]) = Char.ofNat (hexValue [q.1, q.2]) ↔
      hexValue [q.1, q.2] = hexValue [p.1, p.2] := by
  rw [toChar_hexValue]
  constructor
  · intro h
    have hnat := congrArg Char.toNat h
    rw [toNat_byte (hexValue_lt _ _), toNat_byte (hexValue_lt _ _)] at hnat
    exact hnat.symm
  · intro h
    rw [h]

/-- All escapes have the value of the first one, which is not that of the percent sign. -/
private theorem forall_same_cons_iff (hne : hexValue [x, y] ≠ 0x25) (pairs : List (Char × Char)) :
    (∀ p ∈ (x, y) :: pairs, hexValue [p.1, p.2] ≠ 0x25 ∧
      ∀ q ∈ (x, y) :: pairs, hexValue [q.1, q.2] = hexValue [p.1, p.2]) ↔
        ∀ q ∈ pairs, hexValue [q.1, q.2] = hexValue [x, y] := by
  constructor
  · intro hall q hq
    exact (hall (x, y) List.mem_cons_self).2 q (List.mem_cons_of_mem _ hq)
  · intro hall
    have hall' : ∀ q ∈ (x, y) :: pairs, hexValue [q.1, q.2] = hexValue [x, y] :=
      List.forall_mem_cons.mpr ⟨rfl, hall⟩
    intro p hp
    constructor
    · rwa [hall' p hp]
    · intro q hq
      rw [hall' q hq, hall' p hp]

/-- What is decoded, with nothing in the stream. -/
theorem hexLoop_eq_decode_iff (h : Escaped rest) (head : Str) (v : Int) :
    hexLoop (head ++ rest) head.length ⟨[], true⟩ v = .ok (head ++ percentDecode rest) ↔
      ∀ p ∈ escapes rest, hexValue [p.1, p.2] ≠ 0x25 ∧
        ∀ q ∈ escapes rest, hexValue [q.1, q.2] = hexValue [p.1, p.2] := by
  fun_induction escapes rest generalizing head with
  | case1 x y rest ih =>
    obtain ⟨hx, hy, hrest⟩ := h.of_escape
    rw [hexLoop_escape, put_put, List.nil_append, get_pair hx hy, percentDecode, replaceEach]
    have hend : (⟨[], false⟩ : HexBuf).good = false := rfl
    by_cases hpercent : hexValue [x, y] = 0x25
    · have herror := (hexLoop_eq_error_iff_of_not_good hend head rest (hexValue [x, y])).mpr
        (.inr (by rw [hpercent]; decide))
      rw [herror]
      exact iff_of_false nofun fun hall ↦ (hall (x, y) List.mem_cons_self).1 hpercent
    · have hne : toChar (hexValue [x, y]) ≠ '%' := by
        have hlt := hexValue_lt x y
        rw [Ne, toChar_eq_percent_iff]
        omega
      rw [hexLoop_skip hne, hexLoop_of_not_good hend hne, hrest.not_cutShort, toChar_hexValue]
      rw [forall_same_cons_iff hpercent]
      simp only [Bool.false_eq_true, if_false, List.append_assoc, List.singleton_append,
        Except.ok.injEq, List.append_cancel_left_eq, List.cons.injEq, true_and]
      rw [replaceEach_eq_iff]
      refine forall₂_congr fun q _ ↦ ?_
      rw [← toChar_hexValue x y]
      exact toChar_eq_iff (x, y) q
  | case2 c rest hc ih =>
    have hne : c ≠ '%' := by
      rintro rfl
      obtain ⟨x, y, rest', heq, -⟩ := (escaped_cons_iff.mp h).1 rfl
      exact hc x y rest' rfl heq
    rw [hexLoop_skip hne, ← ih h.of_cons (head ++ [c]), percentDecode, replaceEach]
    · simp
    · exact hc
  | case3 =>
    rw [List.append_nil, hexLoop_end]
    simp [percentDecode, replaceEach]

end Decoded

/-- For every URI, whatever is in `c` at first: one that is not well-formed is refused and any other
one is decoded, if and only if the one and only value of its escapes is not that of the percent
sign, or, where it is not well-formed, a percent sign stands too near to the end or is read. -/
theorem decodesRight_iff (junk : Int) (uri : Str) : DecodesRight junk uri ↔ Decodable junk uri := by
  have hrefused : uriHexEscape junk uri = .error .badRequest ↔
      cutShort uri = true ∨ ReadsPercent junk none (escapes uri) :=
    @hexLoop_eq_error_iff junk junk none nofun (fun _ ↦ rfl) (fun h ↦ absurd rfl h) [] uri
  constructor
  · intro h
    refine ⟨fun he ↦ ?_, fun he ↦ hrefused.mp (h.refused he)⟩
    exact (hexLoop_eq_decode_iff he [] junk).mp (h.decoded he)
  · rintro ⟨hdecoded, hbad⟩
    exact ⟨fun he ↦ hrefused.mpr (hbad he),
      fun he ↦ (hexLoop_eq_decode_iff he [] junk).mpr (hdecoded he)⟩

/-- The second escape becomes what the first one has become. -/
theorem not_decodesRight_two : ¬ ∀ (junk : Int) (uri : Str), DecodesRight junk uri := by
  intro h
  have hescaped : Escaped ['%', '4', '1', '%', '4', '2'] := by
    simp [escaped_cons_iff, escaped_nil]
    decide
  have hall := (hexLoop_eq_decode_iff hescaped [] 0).mp ((h 0 _).decoded hescaped)
  exact absurd ((hall ('4', '1') (by decide)).2 ('4', '2') (by decide)) (by decide)

end Filth
