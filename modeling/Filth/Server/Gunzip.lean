import Filth.Base.Text

/-!
# Decompression into memory of unknown size

`gzip::uncompress`, `src/gzip.cpp:41–72`, tries one multiple of the size of the compressed stream
after the other; a PUT or a POST with a compressed body relies on it,
`src/HTTP_Origin_Server.cpp:57–63`. What zlib does with a stream and a buffer is a parameter, and so
is which allocations succeed.
-/

namespace Filth

open Base

namespace Gzip

/-- Formats of streams. -/
inductive Format where
  | gzip | zlib
  deriving DecidableEq, Repr

/-- The calls of zlib: what they make of a stream in a buffer of a given size. The first one is that
of `inflateInit2`, `inflate` and `inflateEnd` by `README_uncompress`. -/
structure Zlib where
  inflate : Str → Nat → Option Str
  uncompress : Str → Nat → Option Str

/-- `(uInt) sz` -/
def uInt (sz : Nat) : Nat := sz % 2 ^ 32

/-- `README_uncompress`, where `none` is any result other than `Z_OK`; `src/gzip.cpp:117–151`. -/
def readmeUncompress (z : Zlib) (destLen : Nat) (source : Str) : Option Str :=
  if uInt source.length ≠ source.length then none
  else if uInt destLen ≠ destLen then none
  else z.inflate source destLen

/-- `gzip::uncompress` into a buffer, `src/gzip.cpp:62–72`. -/
def uncompressInto (z : Zlib) (f : Format) (dstsz : Nat) (src : Str) : Option Str :=
  match f with
  | .gzip => readmeUncompress z dstsz src
  | .zlib => z.uncompress src dstsz

/-- A pointer to what has been decompressed, or one that has not been assigned to. -/
inductive Ptr where
  | null
  | buffer (text : Str)
  | indeterminate
  deriving DecidableEq, Repr

/-- `multiplier * srcsz` -/
def capacity (multiplier : Int) (srcsz : Nat) : Nat := (multiplier * srcsz % 2 ^ 64).toNat

/-- The loop of `gzip::uncompress`, with the pointer and the size that it returns; `alloc` tells in
which turns the allocation succeeds; `src/gzip.cpp:45–58`. -/
def uncompressLoop (z : Zlib) (alloc : Int → Bool) (src : Str) (f : Format) (stop multiplier : Int)
    (tmp : Ptr) (resultsz : Nat) : Ptr × Nat :=
  if multiplier < stop then
    if alloc multiplier then
      match uncompressInto z f (capacity multiplier src.length) src with
      | some text => (.buffer text, text.length)
      | none => uncompressLoop z alloc src f stop (multiplier + 1) .null 0
    else (.null, 0)
  else (tmp, resultsz)
termination_by (stop - multiplier).toNat
decreasing_by omega

/-- `gzip::uncompress`, which allocates memory; `src/gzip.cpp:41–60`. -/
def uncompress (z : Zlib) (alloc : Int → Bool) (resultsz : Nat) (src : Str) (f : Format)
    (start stop : Int) : Ptr × Nat :=
  uncompressLoop z alloc src f stop start .indeterminate resultsz

/-- zlib decompresses the stream precisely into the buffers that its text fits into. -/
def Decompresses (z : Zlib) (f : Format) (src plain : Str) : Prop :=
  ∀ sz, (match f with | .gzip => z.inflate src sz | .zlib => z.uncompress src sz) =
    if plain.length ≤ sz then some plain else none

/-- The text of the stream comes out if it has at most the last multiple of the size of the stream,
and nothing otherwise. -/
def Covers (plain src : Str) (stop : Int) (result : Ptr × Nat) : Prop :=
  result = if (plain.length : Int) ≤ stop * src.length then (.buffer plain, plain.length)
    else (.null, 0)

/-- The text fits into a multiple of the size of the stream, and `README_uncompress` finds that the
sizes fit into an `uInt`. -/
def Fits (f : Format) (src plain : Str) (multiplier : Int) : Prop :=
  plain.length ≤ capacity multiplier src.length ∧
    (f = .gzip → src.length < 2 ^ 32 ∧ capacity multiplier src.length < 2 ^ 32)

/-- The text fits into a multiple before the last one, for which memory can be had, as it can for
the multiples before that. -/
def FitsBefore (alloc : Int → Bool) (f : Format) (src plain : Str) (start stop : Int) : Prop :=
  ∃ m, start ≤ m ∧ m < stop ∧ Fits f src plain m ∧ ∀ k, start ≤ k → k ≤ m → alloc k = true

section Loop

variable {z : Zlib} {alloc : Int → Bool} {f : Format} {src plain : Str} {start stop m : Int}
  {tmp : Ptr} {resultsz : Nat}

private theorem uInt_eq_iff (n : Nat) : uInt n = n ↔ n < 2 ^ 32 := by
  rw [uInt, Nat.mod_eq_iff_lt (by decide)]

/-- A multiple that does not fit into a `size_t` becomes smaller. -/
theorem capacity_le (hm : 0 ≤ m) (n : Nat) : (capacity m n : Int) ≤ m * n := by
  obtain ⟨k, rfl⟩ := Int.eq_ofNat_of_zero_le hm
  have hcast : ((k : Int) * n % 2 ^ 64).toNat = k * n % 2 ^ 64 := by
    have hcast : (k : Int) * n % 2 ^ 64 = ((k * n % 2 ^ 64 : Nat) : Int) := by push_cast; rfl
    rw [hcast, Int.toNat_natCast]
  rw [capacity, hcast]
  exact_mod_cast Nat.mod_le (k * n) (2 ^ 64)

/-- An attempt succeeds if the buffer is large enough and the sizes are not too large. -/
theorem uncompressInto_eq (h : Decompresses z f src plain) (sz : Nat) :
    uncompressInto z f sz src =
      if plain.length ≤ sz ∧ (f = .gzip → src.length < 2 ^ 32 ∧ sz < 2 ^ 32) then some plain
      else none := by
  have hsz := h sz
  cases f with
  | gzip =>
    rw [uncompressInto, readmeUncompress]
    split
    · next hsrc =>
      rw [Ne, uInt_eq_iff] at hsrc
      rw [if_neg fun hfits ↦ hsrc (hfits.2 rfl).1]
    · next hsrc =>
      rw [not_not, uInt_eq_iff] at hsrc
      split
      · next hcap =>
        rw [Ne, uInt_eq_iff] at hcap
        rw [if_neg fun hfits ↦ hcap (hfits.2 rfl).2]
      · next hcap =>
        rw [not_not, uInt_eq_iff] at hcap
        apply hsz.trans
        apply if_congr _ rfl rfl
        exact (and_iff_left fun _ ↦ ⟨hsrc, hcap⟩).symm
  | zlib =>
    apply hsz.trans
    apply if_congr _ rfl rfl
    exact (and_iff_left nofun).symm

private theorem uncompressInto_of_fits (h : Decompresses z f src plain)
    (hfits : Fits f src plain m) :
    uncompressInto z f (capacity m src.length) src = some plain :=
  (uncompressInto_eq h _).trans (if_pos hfits)

private theorem uncompressInto_of_not_fits (h : Decompresses z f src plain)
    (hfits : ¬ Fits f src plain m) :
    uncompressInto z f (capacity m src.length) src = none :=
  (uncompressInto_eq h _).trans (if_neg hfits)

/-- The loop up to the first multiple that the text fits into. -/
private theorem uncompressLoop_of_fitsBefore (h : Decompresses z f src plain)
    (hfits : FitsBefore alloc f src plain m stop) (tmp : Ptr) (resultsz : Nat) :
    uncompressLoop z alloc src f stop m tmp resultsz = (.buffer plain, plain.length) := by
  fun_induction uncompressLoop z alloc src f stop m tmp resultsz with
  | case1 m tmp resultsz hlt halloc text htext =>
    by_cases hm : Fits f src plain m
    · cases htext.symm.trans (uncompressInto_of_fits h hm)
      rfl
    · cases htext.symm.trans (uncompressInto_of_not_fits h hm)
  | case2 m tmp resultsz hlt halloc hnone ih =>
    apply ih
    obtain ⟨k, hle, hk, hfit, hall⟩ := hfits
    have hne : k ≠ m := by
      rintro rfl
      cases hnone.symm.trans (uncompressInto_of_fits h hfit)
    exact ⟨k, by omega, hk, hfit, fun i hi hik ↦ hall i (by omega) hik⟩
  | case3 m tmp resultsz hlt halloc =>
    obtain ⟨k, hle, -, -, hall⟩ := hfits
    exact absurd (hall m (Int.le_refl m) hle) halloc
  | case4 m tmp resultsz hge =>
    obtain ⟨k, hle, hk, -⟩ := hfits
    omega

/-- The loop, where the text fits nowhere or memory runs out before. -/
theorem uncompressLoop_of_not_fitsBefore (h : Decompresses z f src plain)
    (hfits : ¬ FitsBefore alloc f src plain m stop) (tmp : Ptr) (resultsz : Nat) :
    uncompressLoop z alloc src f stop m tmp resultsz =
      if m < stop then (.null, 0) else (tmp, resultsz) := by
  fun_induction uncompressLoop z alloc src f stop m tmp resultsz with
  | case1 m tmp resultsz hlt halloc text htext =>
    by_cases hm : Fits f src plain m
    · refine absurd ⟨m, Int.le_refl m, hlt, hm, fun k hk hkm ↦ ?_⟩ hfits
      rwa [Int.le_antisymm hkm hk]
    · cases htext.symm.trans (uncompressInto_of_not_fits h hm)
  | case2 m tmp resultsz hlt halloc hnone ih =>
    have hrest : ¬ FitsBefore alloc f src plain (m + 1) stop := by
      rintro ⟨k, hle, hk, hfit, hall⟩
      refine hfits ⟨k, by omega, hk, hfit, fun i hi hik ↦ ?_⟩
      by_cases him : i = m
      · rwa [him]
      · exact hall i (by omega) hik
    rw [ih hrest, if_pos hlt]
    split <;> rfl
  | case3 m tmp resultsz hlt halloc => rw [if_pos hlt]
  | case4 m tmp resultsz hge => rw [if_neg hge]

end Loop

/-- Where sizes fit into an `uInt` and memory does not run out, what counts is the multiple before
the last one. -/
theorem fitsBefore_iff {f : Format} {src plain : Str} {alloc : Int → Bool} {start stop : Int}
    (halloc : ∀ m, alloc m = true) (hstart : 1 ≤ start) (hlt : start < stop) (hne : src ≠ [])
    (hsmall : stop * src.length < 2 ^ 32) : FitsBefore alloc f src plain start stop ↔
      (plain.length : Int) ≤ (stop - 1) * src.length := by
  constructor
  · rintro ⟨m, hle, hm, hfit, -⟩
    have hcap : (capacity m src.length : Int) ≤ m * src.length := capacity_le (by omega) _
    have hmul : m * src.length ≤ (stop - 1) * src.length :=
      Int.mul_le_mul_of_nonneg_right (by omega) (by omega)
    have := hfit.1
    omega
  · intro hlen
    have hpos : (1 : Int) ≤ src.length := by
      have := List.length_pos_iff.mpr hne
      omega
    have hlast : (stop - 1) * src.length ≤ stop * src.length :=
      Int.mul_le_mul_of_nonneg_right (by omega) (by omega)
    have hsrc : (src.length : Int) ≤ stop * src.length :=
      le_mul_of_one_le_left (by omega) (by omega)
    have hcap : (capacity (stop - 1) src.length : Int) = (stop - 1) * src.length := by
      have hnonneg : 0 ≤ (stop - 1) * src.length := Int.mul_nonneg (by omega) (by omega)
      rw [capacity, Int.emod_eq_of_lt hnonneg (by omega), Int.toNat_of_nonneg hnonneg]
    exact ⟨stop - 1, by omega, by omega, ⟨by omega, fun _ ↦ ⟨by omega, by omega⟩⟩,
      fun k _ _ ↦ halloc k⟩

/-- For every stream, every format and every pair of multiples, whichever allocations succeed: what
is returned is what is promised if and only if there is an attempt, and a text that is not larger
than promised fits into a multiple before the last one. -/
theorem covers_iff {z : Zlib} {f : Format} {src plain : Str} (h : Decompresses z f src plain)
    (alloc : Int → Bool) (resultsz : Nat) {start : Int} (hstart : 1 ≤ start) (stop : Int) :
    Covers plain src stop (uncompress z alloc resultsz src f start stop) ↔
      start < stop ∧ ((plain.length : Int) ≤ stop * src.length →
        FitsBefore alloc f src plain start stop) := by
  by_cases hfits : FitsBefore alloc f src plain start stop
  · have hfits' := hfits
    obtain ⟨m, hle, hlt, hfit, -⟩ := hfits'
    have hcap : (capacity m src.length : Int) ≤ m * src.length := capacity_le (by omega) _
    have hmul : m * src.length ≤ stop * src.length :=
      Int.mul_le_mul_of_nonneg_right (by omega) (by omega)
    have hlen : (plain.length : Int) ≤ stop * src.length := by
      have := hfit.1
      omega
    rw [Covers, uncompress, uncompressLoop_of_fitsBefore h hfits, if_pos hlen]
    exact iff_of_true rfl ⟨by omega, fun _ ↦ hfits⟩
  · rw [Covers, uncompress, uncompressLoop_of_not_fitsBefore h hfits]
    by_cases hlt : start < stop
    · rw [if_pos hlt]
      split
      · next hlen => exact iff_of_false (by simp) fun hboth ↦ hfits (hboth.2 hlen)
      · next hlen => exact iff_of_true rfl ⟨hlt, fun hle ↦ absurd hle hlen⟩
    · rw [if_neg hlt]
      refine iff_of_false ?_ fun hboth ↦ hlt hboth.1
      split <;> simp

/-- What zlib does with one stream. -/
def Zlib.knowing (src plain : Str) : Zlib where
  inflate s sz := if s = src ∧ plain.length ≤ sz then some plain else none
  uncompress _ _ := none

private theorem decompresses_knowing (src plain : Str) :
    Decompresses (.knowing src plain) .gzip src plain := by
  intro sz
  simp [Zlib.knowing]

/-- A stream of 25 bytes with a text of 5. -/
theorem covers_iff_filth :
    let src : Str := [31, 139, 8, 0, 0, 0, 0, 0, 0, 3, 75, 203, 204, 41, 201, 0, 0, 165, 170, 137,
      223, 5, 0, 0, 0].map Char.ofNat
    Covers "filth".toList src 5
        (uncompress (.knowing src "filth".toList) (fun _ ↦ true) 0 src .gzip 2 5) ↔
      (2 : Int) < 5 ∧ (("filth".toList.length : Int) ≤ 5 * src.length →
        FitsBefore (fun _ ↦ true) .gzip src "filth".toList 2 5) :=
  covers_iff (decompresses_knowing _ _) _ 0 (by decide) 5

/-- A text of 100 bytes, of which a stream has been made that has 24. -/
theorem not_covers_last : ¬ ∀ (z : Zlib) (f : Format) (src plain : Str) (alloc : Int → Bool)
    (resultsz : Nat) (start stop : Int), Decompresses z f src plain → src ≠ [] → 1 ≤ start →
      start ≤ stop → (∀ m, alloc m = true) →
        Covers plain src stop (uncompress z alloc resultsz src f start stop) := by
  intro h
  let src : Str := [31, 139, 8, 0, 0, 0, 0, 0, 0, 3, 75, 76, 164, 61, 0, 0, 100, 122, 112, 175, 100,
    0, 0, 0].map Char.ofNat
  let plain : Str := List.replicate 100 'a'
  have hknown := decompresses_knowing src plain
  have hcovers := h _ .gzip src plain (fun _ ↦ true) 0 2 5 hknown (by decide) (by decide)
    (by decide) fun _ ↦ rfl
  have hsrc : src.length = 24 := by decide
  have hplain : plain.length = 100 := List.length_replicate
  have hfits : ¬ FitsBefore (fun _ ↦ true) .gzip src plain 2 5 := by
    rw [fitsBefore_iff (fun _ ↦ rfl) (by decide) (by decide) (by decide) (by rw [hsrc]; decide),
      hsrc, hplain]
    decide
  rw [Covers, uncompress, uncompressLoop_of_not_fitsBefore hknown hfits, hsrc, hplain] at hcovers
  simp at hcovers

end Gzip

end Filth
