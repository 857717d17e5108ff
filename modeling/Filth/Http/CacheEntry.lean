import Filth.Http.Constants
import Mathlib.Data.List.AList
import Mathlib.Data.Fintype.Basic

/-!
# Responses kept in the cache

`HTTP_CacheEntry`, `src/HTTP_CacheEntry.hpp:27–124` and `src/HTTP_CacheEntry.cpp`. The two
flags that change the output "for this time only" belong to the entry: a manipulator sets
them and the next printing, whoever asked for it, obeys and clears them. A clock reading is
an argument of the functions that take one; those that read the clock twice have two.
-/

namespace Filth

open Base

/-- A response, `src/HTTP_CacheEntry.hpp:27–124`: its body as it is stored, its headers, and what
age and freshness need. -/
structure CacheEntry where
  szondisk : Nat
  szincache : Nat
  requestTime : Int
  responseTime : Int
  lastModified : Int
  buf : Str
  useExpires : Bool
  useMaxAge : Bool
  maxAgeValue : Int
  enc : ContentCoding
  dateValue : Int
  ageValue : Int
  expiresValue : Int
  stat : Status
  hdrs : AList fun _ : Header ↦ Str
  omitBody : Bool
  asifUncompressed : Bool
  deriving DecidableEq

/-- `HTTP_CacheEntry::manip`, `src/HTTP_CacheEntry.hpp:31–34`. -/
inductive Manip where
  | asHead | asIdentity
  deriving DecidableEq, Repr

instance : Fintype Manip where
  elems := {.asHead, .asIdentity}
  complete m := by cases m <;> decide

/-- What printing an entry writes: the status line, the three fixed headers, the others. -/
structure HeaderBlock where
  stat : Status
  contentLength : Nat
  contentEncoding : ContentCoding
  hdrs : List (Header × Str)
  deriving DecidableEq, Repr

namespace HeaderBlock

/-- One header line. -/
def line (h : Header) (v : Str) : Str := h.print ++ v ++ crlf

/-- The block as text, with the empty line that ends it; `src/HTTP_CacheEntry.cpp:76–95`. -/
def text (b : HeaderBlock) : Str :=
  httpVersion ++ ' ' :: b.stat.print ++ crlf ++
    line .contentLength (decimal b.contentLength) ++
    line .contentEncoding b.contentEncoding.str ++
    line .server packageName ++
    (b.hdrs.map fun p ↦ line p.1 p.2).flatten ++ crlf

end HeaderBlock

namespace CacheEntry

/-- The constructor, `src/HTTP_CacheEntry.cpp:8–21`. No status is known before one is pushed; the
first one stands in. -/
def new (szondisk szincache : Nat) (requestTime responseTime lastModified : Int) (buf : Str)
    (enc : ContentCoding) : CacheEntry :=
  { szondisk, szincache, requestTime, responseTime, lastModified, buf
    useExpires := false, useMaxAge := false, maxAgeValue := 0, enc
    dateValue := responseTime, ageValue := 0, expiresValue := 0
    stat := .continue, hdrs := ∅, omitBody := false, asifUncompressed := false }

/-- An entry for an empty file. -/
def blank : CacheEntry := new 0 0 0 0 0 [] .gzip

/-- Push a header, `src/HTTP_CacheEntry.cpp:33–47`; an earlier value is replaced. The headers are an
`unordered_map`, which promises no order; here the last one that was pushed comes first. -/
def pushHeader (c : CacheEntry) (h : Header) (v : Str) : CacheEntry :=
  { c with hdrs := c.hdrs.insert h v }

/-- Push the status, `src/HTTP_CacheEntry.cpp:49–53`. -/
def pushStatus (c : CacheEntry) (s : Status) : CacheEntry := { c with stat := s }

/-- Push a manipulator, `src/HTTP_CacheEntry.cpp:55–69`. -/
def pushManip (c : CacheEntry) : Manip → CacheEntry
  | .asHead => { c with omitBody := true }
  | .asIdentity => { c with asifUncompressed := true }

/-- Print the entry, `src/HTTP_CacheEntry.cpp:76–95`: obey the flags, then clear them. -/
def print (c : CacheEntry) : HeaderBlock × CacheEntry :=
  ({ stat := c.stat
     contentLength :=
       if c.omitBody then 0 else if c.asifUncompressed then c.szondisk else c.szincache
     contentEncoding := if c.asifUncompressed then .identity else c.enc
     hdrs := c.hdrs.entries.map fun p ↦ (p.1, p.2) },
   { c with omitBody := false, asifUncompressed := false })

/-- Age on arrival, `src/HTTP_CacheEntry.hpp:104–108`: by the `Date` header or by the `Age` header,
whichever is more. -/
def correctedReceivedAge (c : CacheEntry) (now : Int) : Int := max (now - c.dateValue) c.ageValue

/-- How long the response took, `src/HTTP_CacheEntry.hpp:109`. -/
def responseDelay (c : CacheEntry) : Int := c.responseTime - c.requestTime

/-- Age on arrival, counting the delay; `src/HTTP_CacheEntry.hpp:110–113`. -/
def correctedInitialAge (c : CacheEntry) (now : Int) : Int :=
  c.correctedReceivedAge now + c.responseDelay

/-- Time spent in the cache, `src/HTTP_CacheEntry.hpp:114`. -/
def residentTime (c : CacheEntry) (now : Int) : Int := now - c.responseTime

/-- Current age, from two readings of the clock; `src/HTTP_CacheEntry.hpp:118`. -/
def currentAge (c : CacheEntry) (now now' : Int) : Int :=
  c.correctedInitialAge now + c.residentTime now'

/-- Freshness lifetime, `src/HTTP_CacheEntry.hpp:120–123`. -/
def freshnessLifetime (c : CacheEntry) : Int :=
  if c.useMaxAge then c.maxAgeValue else c.expiresValue - c.dateValue

/-- Fresh or not, `src/HTTP_CacheEntry.cpp:28–31`. -/
def responseIsFresh (c : CacheEntry) (now now' : Int) : Bool :=
  c.currentAge now now' < c.freshnessLifetime

end CacheEntry
end Filth
