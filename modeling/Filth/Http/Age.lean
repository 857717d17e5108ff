import Filth.Http.CacheEntry

/-!
# The age of an entry

`HTTP_CacheEntry::current_age` and its helpers, `src/HTTP_CacheEntry.hpp:102–123`, beside the
rules of section 13.2.3 of the standard that the source refers to. The source takes the apparent
age from the present time, not from the time of the response, so the time an entry has spent in
the cache is in its age twice, unless the `Age` header says that it was even older.
-/

namespace Filth.CacheEntry

/-- `apparent_age` of the standard: how old a response seemed when it arrived. -/
def apparentAge (c : CacheEntry) : Int := max 0 (c.responseTime - c.dateValue)

/-- `corrected_initial_age` of the standard. -/
def initialAge (c : CacheEntry) : Int := max c.apparentAge c.ageValue + c.responseDelay

/-- `current_age` of the standard. -/
def standardAge (c : CacheEntry) (now : Int) : Int := c.initialAge + c.residentTime now

/-- At an instant, the age is what the standard says, it has grown by `d` after as much time, and
the entry is fresh as long as its lifetime exceeds its initial age. -/
structure AgesByTheBook (c : CacheEntry) (now d : Int) : Prop where
  age : c.currentAge now now = c.standardAge now
  grows : c.currentAge (now + d) (now + d) = c.currentAge now now + d
  fresh : c.responseIsFresh now now = true ↔
    now - c.responseTime < c.freshnessLifetime - c.initialAge

variable (c : CacheEntry) {now d : Int}

/-- The age of the source and the age of the standard differ in the age on arrival. -/
private theorem currentAge_eq_standardAge_iff (now : Int) :
    c.currentAge now now = c.standardAge now ↔
    c.correctedReceivedAge now = max c.apparentAge c.ageValue := by
  unfold currentAge correctedInitialAge standardAge initialAge
  omega

/-- The age on arrival is right as long as the `Age` header tells of no less time than has passed
since the response was made, and right away. -/
theorem correctedReceivedAge_eq_iff (hnow : c.responseTime ≤ now) :
    c.correctedReceivedAge now = max c.apparentAge c.ageValue ↔
      0 ≤ c.correctedReceivedAge now ∧
        (now = c.responseTime ∨ now - c.dateValue ≤ max 0 c.ageValue) := by
  unfold correctedReceivedAge apparentAge
  omega

/-- Time is counted twice unless the `Age` header covers it. -/
private theorem currentAge_add_iff (hd : 0 ≤ d) :
    c.currentAge (now + d) (now + d) = c.currentAge now now + d ↔
      d = 0 ∨ now + d - c.dateValue ≤ c.ageValue := by
  unfold currentAge correctedInitialAge correctedReceivedAge residentTime
  omega

/-- An entry of the right age is fresh as long as it should be. -/
private theorem responseIsFresh_of_age (h : c.currentAge now now = c.standardAge now) :
    c.responseIsFresh now now = true ↔
      now - c.responseTime < c.freshnessLifetime - c.initialAge := by
  unfold responseIsFresh
  rw [h, decide_eq_true_eq]
  unfold standardAge residentTime
  omega

/-- The age follows the standard just when what the `Age` header says covers the time since the
response was made, up to the later instant; or else when no time has passed at all. -/
theorem agesByTheBook_iff (hnow : c.responseTime ≤ now) (hd : 0 ≤ d) : c.AgesByTheBook now d ↔
    0 ≤ c.correctedReceivedAge now ∧
      (now = c.responseTime ∨ now - c.dateValue ≤ max 0 c.ageValue) ∧
      (d = 0 ∨ now + d - c.dateValue ≤ c.ageValue) := by
  rw [← and_assoc, ← c.correctedReceivedAge_eq_iff hnow, ← c.currentAge_eq_standardAge_iff,
    ← c.currentAge_add_iff hd]
  constructor
  · intro h
    exact ⟨h.age, h.grows⟩
  · rintro ⟨hage, hgrows⟩
    exact ⟨hage, hgrows, c.responseIsFresh_of_age hage⟩

/-- A response that was an hour old when it arrived has the right age for an hour. -/
theorem agesByTheBook_iff_aged : AgesByTheBook { blank with ageValue := 3600 } 10 5 :=
  (agesByTheBook_iff _ (by decide) (by decide)).mpr (by decide)

/-- Ten seconds after it has been stored, a new entry is twenty seconds old. -/
theorem not_agesByTheBook_blank : ¬ ∀ (c : CacheEntry) (now d : Int),
    c.requestTime ≤ c.responseTime → c.responseTime ≤ now → 0 ≤ d → c.AgesByTheBook now d :=
  fun h ↦ absurd (h blank 10 0 (by decide) (by decide) (by decide)).age (by decide)

end Filth.CacheEntry
