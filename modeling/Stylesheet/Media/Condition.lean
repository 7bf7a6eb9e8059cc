import Stylesheet.Text
import Stylesheet.Unicode.Word

/-!
# Media conditions

What a media condition asks for, as far as the order of media blocks needs it.  All scans are on
the condition in lower case.

* *Words* such as `print` count where they stand between word boundaries.
* *Preferences* are features whose name starts with `prefers-`.
* *Bounds* come in two notations: a feature name that starts with `min-` or `max-` and has a colon,
  and comparisons such as `(width >= 40em)` or `(400px <= width < 900px)` inside innermost
  parentheses.
* *Numbers* are runs of digits, perhaps with a fraction, together with the unit after them.
-/

namespace Stylesheet.Media

open Stylesheet.Text (headIs isSpace trim)
open Stylesheet.Unicode (isDecimal isWordAt)

/-! ## Words -/

/-- Does the text hold `word`, which is made of word characters, between word boundaries?  `before`
is the character before the text. -/
def hasWordFrom (word : List Char) (before : Option Char) : List Char → Bool
  | [] => false
  | c :: cs =>
      (!isWordAt before && word.isPrefixOf (c :: cs) &&
        !isWordAt ((c :: cs).drop word.length).head?) ||
        hasWordFrom word (some c) cs

/-- Does the condition hold a word? -/
def hasWord (word : String) (condition : List Char) : Bool :=
  hasWordFrom word.toList none condition

/-! ## Features -/

/-- A character of a feature name. -/
def isFeatureChar (c : Char) : Bool := c.isLower || c == '-'

/-- The feature name at the start of a text, when it starts with `head` and goes on after it. -/
def featureAt? (head : List Char) (cs : List Char) : Option (List Char) :=
  if head.isPrefixOf cs && headIs isFeatureChar (cs.drop head.length) then
    some (cs.takeWhile isFeatureChar)
  else none

/-- The first feature name that starts with `head` at a word boundary. -/
def preferenceFrom? (head : List Char) (before : Option Char) : List Char → Option (List Char)
  | [] => none
  | c :: cs =>
      match if isWordAt before then none else featureAt? head (c :: cs) with
      | some name => some name
      | none => preferenceFrom? head (some c) cs

/-- The first preference feature of a condition. -/
def preference? (condition : List Char) : Option (List Char) :=
  preferenceFrom? "prefers-".toList none condition

/-- Is there, at a word boundary, a feature name that starts with `head` and has a colon after it,
perhaps after spaces? -/
def hasFeatureFrom (head : List Char) (before : Option Char) : List Char → Bool
  | [] => false
  | c :: cs =>
      (!isWordAt before &&
        match featureAt? head (c :: cs) with
        | some name => headIs (· == ':') (((c :: cs).drop name.length).dropWhile isSpace)
        | none => false) ||
        hasFeatureFrom head (some c) cs

/-- Does the condition bound a feature by a name that starts with `head`? -/
def hasFeature (head : String) (condition : List Char) : Bool :=
  hasFeatureFrom head.toList none condition

/-! ## Comparisons -/

/-- Which bounds a condition sets. -/
structure Bounds where
  /-- A lower bound. -/
  min : Bool := false
  /-- An upper bound. -/
  max : Bool := false
deriving DecidableEq, Repr

/-- The bounds that either of two sets. -/
def Bounds.or (a b : Bounds) : Bounds := ⟨a.min || b.min, a.max || b.max⟩

/-- The texts between an opening parenthesis and the next parenthesis, when that one closes it.
`inner` is the text since the last opening parenthesis. -/
def groupsFrom (inner : Option (List Char)) : List Char → List (List Char)
  | [] => []
  | c :: cs =>
      if c == '(' then groupsFrom (some []) cs
      else if c == ')' then inner.toList ++ groupsFrom none cs
      else groupsFrom (inner.map (· ++ [c])) cs

/-- The innermost groups of a condition. -/
def groups (condition : List Char) : List (List Char) := groupsFrom none condition

/-- A comparison sign: does it open to the right? -/
inductive Comparison where
  /-- `<` or `<=`. -/
  | less
  /-- `>` or `>=`. -/
  | greater
deriving DecidableEq, Repr

/-- The comparison sign that a character starts. -/
def comparison? (c : Char) : Option Comparison :=
  if c == '<' then some .less else if c == '>' then some .greater else none

/-- The text before the first comparison sign, and each sign with the text after it. -/
def operands : List Char → List Char × List (Comparison × List Char)
  | [] => ([], [])
  | c :: cs =>
      let (first, others) := operands cs
      match comparison? c with
      | some sign =>
          let operand := if headIs (· == '=') cs then first.drop 1 else first
          ([], (sign, operand) :: others)
      | none => (c :: first, others)

/-- An operand that is a feature name. -/
def isFeature (operand : List Char) : Bool := headIs Char.isAlpha (trim operand)

/-- The bounds that a comparison of two operands sets: on the feature, whichever side it is on. -/
def boundsOf (left : List Char) (sign : Comparison) (right : List Char) : Bounds :=
  match isFeature left, isFeature right, sign with
  | true, _, .greater => { min := true }
  | true, _, .less => { max := true }
  | false, true, .greater => { max := true }
  | false, true, .less => { min := true }
  | false, false, _ => {}

/-- The bounds that a chain of comparisons sets, from its first operand on. -/
def chainBounds (left : List Char) : List (Comparison × List Char) → Bounds
  | [] => {}
  | (sign, right) :: rest => (boundsOf left sign right).or (chainBounds right rest)

/-- The bounds that the comparisons of a condition set. -/
def comparisonBounds (condition : List Char) : Bounds :=
  ((groups condition).map fun group =>
    let (first, others) := operands group
    chainBounds first others).foldl Bounds.or {}

/-- The bounds that a condition sets in either notation. -/
def bounds (condition : List Char) : Bounds :=
  (comparisonBounds condition).or ⟨hasFeature "min-" condition, hasFeature "max-" condition⟩

/-! ## Numbers -/

/-- A number as it is written, and its unit. -/
structure Quantity where
  /-- The digits before the point. -/
  whole : List Char
  /-- The digits after the point; empty if there is no point. -/
  fraction : List Char
  /-- The unit. -/
  unit : List Char
deriving DecidableEq, Repr

/-- A character of a unit. -/
def isUnitChar (c : Char) : Bool := c.isLower || c == '%'

/-- The number at the start of a text with its unit.  Both parts may hold digits of any script. -/
def quantityAt? (cs : List Char) : Option Quantity :=
  let whole := cs.takeWhile isDecimal
  let rest := cs.drop whole.length
  let fraction :=
    match rest with
    | '.' :: after => after.takeWhile isDecimal
    | _ => []
  if whole.isEmpty && fraction.isEmpty then none
  else
    let written := if fraction.isEmpty then 0 else fraction.length + 1
    some ⟨whole, fraction, (rest.drop written).takeWhile isUnitChar⟩

/-- How many characters a number takes with its unit. -/
def Quantity.length (q : Quantity) : Nat :=
  q.whole.length + (if q.fraction.isEmpty then 0 else q.fraction.length + 1) + q.unit.length

/-- The numbers of a text after its first `skip` characters. -/
def quantitiesFrom : (skip : Nat) → List Char → List Quantity
  | _, [] => []
  | skip + 1, _ :: cs => quantitiesFrom skip cs
  | 0, c :: cs =>
      match quantityAt? (c :: cs) with
      | some q => q :: quantitiesFrom (q.length - 1) cs
      | none => quantitiesFrom 0 cs

/-- The numbers of a condition. -/
def quantities (condition : List Char) : List Quantity := quantitiesFrom 0 condition

end Stylesheet.Media
