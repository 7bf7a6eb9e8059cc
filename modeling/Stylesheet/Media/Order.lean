import Stylesheet.Media.Condition

/-!
# The order of media blocks

Media blocks are sorted by a *bucket* first, and within a bucket by a *magnitude*.

The buckets put lower bounds first, then upper bounds, ranges, `screen`, `all`, everything else,
preferences in a fixed order, and `print` last.  A condition falls into the first class that fits,
asked in the order print, preference, bounds, screen, all.

The magnitude is the sum of all numbers in the condition, with `em` and `rem` taken as sixteen
pixels and other units as they are.  It is a double precision sum from left to right that starts at
negative zero.  A number that has other than ASCII digits is left out.  Magnitudes are compared in
the total order of doubles, in which negative zero comes before zero.
-/

namespace Stylesheet.Media

open Stylesheet.Text (lower)

/-! ## Buckets -/

/-- The class of a condition. -/
inductive Bucket where
  /-- Lower bounds only. -/
  | minBound
  /-- Upper bounds only. -/
  | maxBound
  /-- Bounds on both sides. -/
  | range
  /-- `screen`. -/
  | screen
  /-- `all`. -/
  | all
  /-- None of the others. -/
  | other
  /-- A preference, by its number in `preferenceFeatures`; unknown ones have the number after the
  last. -/
  | preference (index : Nat)
  /-- `print`. -/
  | print
deriving DecidableEq, Repr

/-- The known preference features in the order of their blocks. -/
def preferenceFeatures : List String :=
  ["prefers-color-scheme", "prefers-reduced-motion", "prefers-contrast",
    "prefers-reduced-transparency", "prefers-reduced-data"]

/-- The place of a bucket in the order; preferences have their number as a second key. -/
def Bucket.rank : Bucket → Nat × Nat
  | .minBound => (0, 0)
  | .maxBound => (1, 0)
  | .range => (2, 0)
  | .screen => (3, 0)
  | .all => (4, 0)
  | .other => (5, 0)
  | .preference index => (6, index)
  | .print => (7, 0)

/-- The bucket of a condition. -/
def Bucket.of (condition : String) : Bucket :=
  let text := lower condition.toList
  if hasWord "print" text then .print
  else
    match preference? text with
    | some feature => .preference (preferenceFeatures.idxOf (String.ofList feature))
    | none =>
        match bounds text with
        | ⟨true, true⟩ => .range
        | ⟨true, false⟩ => .minBound
        | ⟨false, true⟩ => .maxBound
        | ⟨false, false⟩ =>
            if hasWord "screen" text then .screen
            else if hasWord "all" text then .all
            else .other

/-! ## Magnitudes -/

/-- The number that a run of ASCII digits writes. -/
def decimalNumber (digits : List Char) : Nat :=
  digits.foldl (fun n c => n * 10 + (c.toNat - '0'.toNat)) 0

/-- The size of a quantity in pixels, if it is written in ASCII digits. -/
def Quantity.pixels? (q : Quantity) : Option Float :=
  let digits := q.whole ++ q.fraction
  if digits.all Char.isDigit then
    let number := Float.ofScientific (decimalNumber digits) true q.fraction.length
    if q.unit == ['e', 'm'] || q.unit == ['r', 'e', 'm'] then some (number * 16.0) else some number
  else none

/-- The sum of some sizes. -/
def total (sizes : List Float) : Float := sizes.foldl (· + ·) (-0.0)

/-- The magnitude of a condition. -/
def magnitude (condition : String) : Float :=
  total ((quantities (lower condition.toList)).filterMap Quantity.pixels?)

/-- The place of a double in the total order: a negative one comes before all positive ones, and
the larger its size the earlier. -/
def orderKey (x : Float) : Int :=
  let bits := x.toBits.toNat
  if bits < 0x8000000000000000 then bits else 0x8000000000000000 - 1 - (bits : Int)

/-! ## The order -/

/-- The place of a media block among the others. -/
structure Order where
  /-- The first key. -/
  bucket : Bucket
  /-- The second key. -/
  magnitude : Float

/-- The place of the block with a condition. -/
def Order.of (condition : String) : Order := ⟨.of condition, Media.magnitude condition⟩

/-- Compare two places. -/
def Order.compare (a b : Order) : Ordering :=
  ((Ord.compare a.bucket.rank.1 b.bucket.rank.1).then
    (Ord.compare a.bucket.rank.2 b.bucket.rank.2)).then
    (Ord.compare (orderKey a.magnitude) (orderKey b.magnitude))

/-- Does a place come no later than another? -/
def Order.le (a b : Order) : Bool := (a.compare b).isLE

end Stylesheet.Media
