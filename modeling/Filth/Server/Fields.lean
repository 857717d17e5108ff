import Filth.Base.Words
import Filth.Http.Names
import Filth.Server.Browsing
import Filth.Server.Turns

/-!
# Values of header fields

A header is kept as the line it came in, and each of its readers has to strip the name.
`HTTP_Server_Work::operator()` does so for `Content-Length`, `src/HTTP_Server_Work.cpp:50–56`;
`browse_req` compares and extracts whole lines, `src/HTTP_2616_Server_Work.cpp:442–468`, and since
every such line begins with a letter, no expectation is ever `100-continue` and no number is found.
-/

namespace Filth

open Base

/-- The value of a header line: what follows the colon, without white space around it. -/
def fieldValue (line : Str) : Str := trim (line.drop ((line.takeWhile (· ≠ ':')).length + 1))

/-- A decimal number that fits into a `size_t`. -/
def IsDecimal (v : Str) (n : Nat) : Prop :=
  v ≠ [] ∧ (∀ c ∈ v, c.isDigit = true) ∧ digitsValue v = n ∧ n < 2 ^ 64

instance (v : Str) (n : Nat) : Decidable (IsDecimal v n) :=
  inferInstanceAs (Decidable (_ ∧ _ ∧ _ ∧ _))

/-! ### Lines begin with their names -/

/-- A line that a header is read from begins, after white space, with the first letter of the
name. -/
theorem Header.head?_of_extract {line v : Str} {hd : Header} {c : Char}
    (h : extract line = some (hd, v)) (hc : hd.str.head? = some c) (hletter : c ≠ '_') :
    (line.dropWhile isspace).head? = some c := by
  unfold extract at h
  dsimp only at h
  split at h
  · obtain ⟨hd', hfind, heq⟩ := Option.map_eq_some_iff.mp h
    cases heq
    rw [str_of_find hfind] at hc
    have hname := head?_trim hc
    rw [dropWhile_isspace_map isspace_underscored, List.head?_map] at hname
    obtain ⟨d, hd', hdc⟩ := Option.map_eq_some_iff.mp hname
    have hcd : d = c := by
      split at hdc
      · exact absurd hdc.symm hletter
      · exact hdc
    obtain ⟨t, ht⟩ := List.head?_eq_some_iff.mp hd'
    conv_lhs => rw [← List.takeWhile_append_dropWhile (p := fun c ↦ decide (c ≠ ':')) (l := line)]
    rw [List.dropWhile_append, ht, hcd]
    rfl
  · cases h

/-- No number is found where there is neither a digit nor a sign. -/
private theorem extractSize_of_letter {s : Str} {c : Char}
    (h : (s.dropWhile isspace).head? = some c)
    (hletter : c.isDigit = false ∧ c ≠ '-' ∧ c ≠ '+') (old : Nat) : extractSize s old = 0 := by
  obtain ⟨t, ht⟩ : ∃ t, s.dropWhile isspace = c :: t := by
    cases hs : s.dropWhile isspace with
    | nil =>
      rw [hs] at h
      cases h
    | cons d t =>
      rw [hs] at h
      cases h
      exact ⟨t, rfl⟩
  have hnumeral : numeral (c :: t) = (false, [], c :: t) := by
    unfold numeral
    split
    · next heq => exact absurd (List.cons.inj heq).1 hletter.2.1
    · next heq => exact absurd (List.cons.inj heq).1 hletter.2.2
    · simp [hletter.1]
  rw [extractSize, ht, if_neg (by simp), hnumeral]
  rfl

/-- What begins, after white space, with something other than a digit is no `100-continue`. -/
private theorem lower_cstr_ne_continue {s : Str} {c : Char}
    (h : (s.dropWhile isspace).head? = some c)
    (hc : c.toLower ≠ '1') : lower (cstr s) ≠ "100-continue".toList := by
  intro heq
  cases s with
  | nil => cases h
  | cons d t =>
    have hhead : (lower (cstr (d :: t))).head? = some '1' := by rw [heq]; rfl
    have hd : d.toLower = '1' := by
      rw [cstr, List.takeWhile_cons] at hhead
      split at hhead
      · simpa [lower] using hhead
      · cases hhead
    rw [List.dropWhile_cons] at h
    split at h
    · next hspace =>
      have : d = ' ' ∨ d = '\t' ∨ d = '\n' ∨ d = '\x0b' ∨ d = '\x0c' ∨ d = '\r' := by
        simpa [isspace] using hspace
      rcases this with rfl | rfl | rfl | rfl | rfl | rfl <;> exact absurd hd (by decide)
    · cases h
      exact hc hd

namespace Client

variable {cfg : Config} {w w₁ v v₁ : Client}

/-- `browse_req` up to the coding of the body. -/
def browseFront (cfg : Config) : ClientM Unit := do
  browseReqln cfg
  browseAcceptEncoding
  browseCacheControl
  browseConnection
  browseContentEncoding

/-- What `browse_req` does after that. -/
theorem browseReq_of_front (h : browseFront cfg w = (.ok (), w₁)) :
    browseReq cfg w = (do browseExpect; browseMaxForwards : ClientM Unit) w₁ := by
  obtain ⟨_, v₁, h₁, h⟩ := Eff.bind_eq_ok h
  obtain ⟨_, v₂, h₂, h⟩ := Eff.bind_eq_ok h
  obtain ⟨_, v₃, h₃, h⟩ := Eff.bind_eq_ok h
  obtain ⟨_, v₄, h₄, h₅⟩ := Eff.bind_eq_ok h
  rw [browseReq, Eff.bind_ok h₁, Eff.bind_ok h₂, Eff.bind_ok h₃, Eff.bind_ok h₄, Eff.bind_ok h₅]

/-- The lines it looks at then are those that the request came with. -/
theorem line_of_front (h : browseFront cfg w = (.ok (), w₁)) :
    w₁.line .expect = w.line .expect ∧ w₁.line .maxForwards = w.line .maxForwards := by
  have hI : Spared fun v ↦ v.line .expect = w.line .expect ∧
      v.line .maxForwards = w.line .maxForwards := by
    refine ⟨?_, fun h _ ↦ h, fun h _ ↦ h, fun h _ ↦ h, fun h ↦ h⟩
    rintro v hv hd (rfl | rfl | rfl) s <;> simpa using hv
  obtain ⟨_, v₁, h₁, h⟩ := Eff.bind_eq_ok h
  have hhdrs := (browseReqln_ok h₁).2
  have hv₁ : v₁.line .expect = w.line .expect ∧ v₁.line .maxForwards = w.line .maxForwards := by
    simp only [line, hhdrs, and_self]
  have hrest := Eff.Ensures.bind hI.acceptEncoding fun _ ↦ .bind hI.cacheControl fun _ ↦
    .bind (keeps_connection fun _ ↦ hI.deleteme) fun _ ↦ hI.contentEncoding
  exact (hrest v₁ hv₁).1 () w₁ h

/-- A line with an expectation is refused, whatever the expectation. -/
theorem browseReq_of_expect (h : browseFront cfg w = (.ok (), w₁)) (hstored : w.reqHdrs.Stored)
    (hline : w.line .expect ≠ []) : (browseReq cfg w).1 = .error .expectationFailed := by
  obtain ⟨value, hvalue⟩ := hstored .expect hline
  have hno : lower (cstr (w.line .expect)) ≠ "100-continue".toList :=
    lower_cstr_ne_continue (Header.head?_of_extract hvalue (c := 'E') rfl (by decide)) (by decide)
  have hexpect : browseExpect w₁ = (.error .expectationFailed, w₁) := by
    rw [browseExpect, Eff.gets_bind, (line_of_front h).1, if_pos hline, if_neg hno]
    rfl
  rw [browseReq_of_front h, Eff.bind_error hexpect]

/-- Without an expectation, a line with a number of hops leaves zero. -/
theorem browseReq_of_maxForwards (h : browseFront cfg w = (.ok (), w₁))
    (hstored : w.reqHdrs.Stored) (hexpect : w.line .expect = [])
    (hline : w.line .maxForwards ≠ []) :
    (browseReq cfg w).1 = .ok () ∧ (browseReq cfg w).2.clMaxFwds = 0 := by
  obtain ⟨value, hvalue⟩ := hstored .maxForwards hline
  have hzero : extractSize (w.line .maxForwards) w₁.clMaxFwds = 0 :=
    extractSize_of_letter (Header.head?_of_extract hvalue (c := 'M') rfl (by decide)) (by decide) _
  have hpass : browseExpect w₁ = (.ok (), w₁) := by
    rw [browseExpect, Eff.gets_bind, (line_of_front h).1, if_neg (not_not.mpr hexpect)]
    rfl
  rw [browseReq_of_front h, Eff.bind_ok hpass, browseMaxForwards, Eff.gets_bind,
    (line_of_front h).2, if_pos hline, Eff.modify_apply, hzero]
  exact ⟨rfl, rfl⟩

/-- Without either line the request is accepted. -/
theorem browseReq_of_neither (h : browseFront cfg w = (.ok (), w₁)) (hexpect : w.line .expect = [])
    (hline : w.line .maxForwards = []) : browseReq cfg w = (.ok (), w₁) := by
  have hpass : browseExpect w₁ = (.ok (), w₁) := by
    rw [browseExpect, Eff.gets_bind, (line_of_front h).1, if_neg (not_not.mpr hexpect)]
    rfl
  rw [browseReq_of_front h, Eff.bind_ok hpass, browseMaxForwards, Eff.gets_bind,
    (line_of_front h).2, if_neg (not_not.mpr hline)]
  rfl

/-- Both lines are there or neither, with the same value. -/
def SameValue (line line' : Str) : Prop :=
  (line = [] ↔ line' = []) ∧ fieldValue line = fieldValue line'

/-- The expectation and the number of hops are read from the values of their headers: other
requests with the same values fare alike; `100-continue`, in any case, continues and every other
expectation fails; and a decimal number is taken for what it is. -/
structure ValuesRead (cfg : Config) (w : Client) : Prop where
  only (v v₁ : Client) (h : browseFront cfg v = (.ok (), v₁)) (hstored : v.reqHdrs.Stored)
    (hexpect : SameValue (w.line .expect) (v.line .expect))
    (hforwards : SameValue (w.line .maxForwards) (v.line .maxForwards)) :
    (browseReq cfg w).1 = (browseReq cfg v).1 ∧
      (w.line .expect = [] → w.line .maxForwards ≠ [] →
        (browseReq cfg w).2.clMaxFwds = (browseReq cfg v).2.clMaxFwds)
  continues (hline : w.line .expect ≠ [])
    (hvalue : lower (fieldValue (w.line .expect)) = "100-continue".toList) :
    (browseReq cfg w).1 = .error .continue
  fails (hline : w.line .expect ≠ []) (hne : fieldValue (w.line .expect) ≠ [])
    (hvalue : lower (fieldValue (w.line .expect)) ≠ "100-continue".toList) :
    (browseReq cfg w).1 = .error .expectationFailed
  forwards (hline : w.line .expect = []) (n : Nat)
    (hvalue : IsDecimal (fieldValue (w.line .maxForwards)) n) :
    (browseReq cfg w).2.clMaxFwds = n

/-- No expectation of `100-continue`, and no number of hops but zero, unless an expectation comes
before it. -/
structure NothingToRead (w : Client) : Prop where
  expect (hline : w.line .expect ≠ []) :
    lower (fieldValue (w.line .expect)) ≠ "100-continue".toList
  forwards (hline : w.line .expect = []) (n : Nat)
    (hvalue : IsDecimal (fieldValue (w.line .maxForwards)) n) : n = 0

/-- For every request whose other headers are accepted: the two values are read as values just
when nothing depends on them. -/
theorem valuesRead_iff (h : browseFront cfg w = (.ok (), w₁)) (hstored : w.reqHdrs.Stored) :
    ValuesRead cfg w ↔ NothingToRead w := by
  have hline (n : Nat) (hvalue : IsDecimal (fieldValue (w.line .maxForwards)) n) :
      w.line .maxForwards ≠ [] := fun hnil ↦ hvalue.1 (by rw [hnil]; rfl)
  constructor
  · intro hread
    refine ⟨fun hne hvalue ↦ ?_, fun hnil n hvalue ↦ ?_⟩
    · have hcontinue := hread.continues hne hvalue
      rw [browseReq_of_expect h hstored hne] at hcontinue
      cases hcontinue
    · rw [← hread.forwards hnil n hvalue]
      exact (browseReq_of_maxForwards h hstored hnil (hline n hvalue)).2
  · intro hnothing
    refine ⟨fun v v₁ hv hstored' hexpect hforwards ↦ ?_, fun hne hvalue ↦ ?_,
      fun hne _ _ ↦ browseReq_of_expect h hstored hne, fun hnil n hvalue ↦ ?_⟩
    · by_cases hne : w.line .expect = []
      · have hne' := hexpect.1.mp hne
        by_cases hm : w.line .maxForwards = []
        · rw [browseReq_of_neither h hne hm, browseReq_of_neither hv hne' (hforwards.1.mp hm)]
          exact ⟨rfl, fun _ hm' ↦ absurd hm hm'⟩
        · have hw := browseReq_of_maxForwards h hstored hne hm
          have hv := browseReq_of_maxForwards hv hstored' hne' (mt hforwards.1.mpr hm)
          exact ⟨hw.1.trans hv.1.symm, fun _ _ ↦ hw.2.trans hv.2.symm⟩
      · have hne' := mt hexpect.1.mpr hne
        rw [browseReq_of_expect h hstored hne, browseReq_of_expect hv hstored' hne']
        exact ⟨rfl, fun hnil ↦ absurd hnil hne⟩
    · exact absurd hvalue (hnothing.expect hne)
    · rw [hnothing.forwards hnil n hvalue]
      exact (browseReq_of_maxForwards h hstored hnil (hline n hvalue)).2

/-- A request that expects to be told to continue. -/
def expectant : Client :=
  { new with reqHdrs := hdrsOf ["PUT /a HTTP/1.1".toList, "Expect: 100-continue".toList] }

private theorem front_expectant :
    browseFront .lax expectant = (.ok (), (browseFront .lax expectant).2) :=
  Prod.ext (by decide) rfl

private theorem stored_expectant : expectant.reqHdrs.Stored :=
  (Hdrs.stored_empty.store "PUT /a HTTP/1.1".toList).store "Expect: 100-continue".toList

/-- Nothing that depends on a value is promised of such a request. -/
theorem valuesRead_iff_expectant : ValuesRead .lax expectant ↔ NothingToRead expectant :=
  valuesRead_iff front_expectant stored_expectant

/-- It is told that its expectation failed. -/
theorem not_valuesRead_expectant : (browseReq .lax expectant).1 = .error .expectationFailed ∧
    ¬ ValuesRead .lax expectant := by
  have hfailed := browseReq_of_expect front_expectant stored_expectant (by decide)
  refine ⟨hfailed, fun h ↦ ?_⟩
  have hcontinue := h.continues (by decide) (by decide)
  rw [hfailed] at hcontinue
  cases hcontinue

end Client
end Filth
