import Stylesheet.Pattern

/-!
# Putting patterns together

Patterns are put together from their parts by `ofSet`, `sequence`, `oneOf` and `repeated`, which
keep them small:

* A set of one character is that character, and texts next to each other are one text.
* A sequence is not a part of a sequence, and no choice is a branch of a choice.  The empty text is
  not a part of a sequence.
* A choice between single characters, or between sets, is a set.
* A choice between sequences that start with the same parts starts with these parts.
* What takes no text is repeated at most once.  To repeat something exactly once is to have it, and
  to repeat it no time at all is the empty text.

None of this changes what a pattern matches.  How large its automaton becomes depends on it
(`Stylesheet.Automaton`).

The lengths of a pattern are in bytes.  A set without characters has no lengths, and neither has a
pattern that needs it.
-/

namespace Stylesheet.Pattern

/-! ## Lengths -/

/-- The number of bytes of a text. -/
def byteLength (text : List Char) : Nat := (Unicode.encodeText text).length

mutual

/-- The least number of bytes that a pattern takes. -/
def minLength? : Pattern → Option Nat
  | .empty | .anchor _ => some 0
  | .literal text => some (byteLength text)
  | .char set => set.ranges.head?.map fun (first, _) => (Unicode.encode first).length
  | .rep a min _ _ => (minLength? a).map (· * min)
  | .group _ a => minLength? a
  | .seq parts => minTotal? parts
  | .alt branches => minAny? branches

/-- The least number of bytes that patterns one after the other take. -/
def minTotal? : List Pattern → Option Nat
  | [] => some 0
  | a :: rest => do return (← minLength? a) + (← minTotal? rest)

/-- The least number of bytes that one of several patterns takes. -/
def minAny? : List Pattern → Option Nat
  | [] => none
  | [a] => minLength? a
  | a :: rest => do return Nat.min (← minLength? a) (← minAny? rest)

end

mutual

/-- The greatest number of bytes that a pattern takes, if there is one. -/
def maxLength? : Pattern → Option Nat
  | .empty | .anchor _ => some 0
  | .literal text => some (byteLength text)
  | .char set => set.ranges.getLast?.map fun (_, last) => (Unicode.encode last).length
  | .rep a _ max _ => do return (← maxLength? a) * (← max)
  | .group _ a => maxLength? a
  | .seq parts => maxTotal? parts
  | .alt branches => maxAny? branches

/-- The greatest number of bytes that patterns one after the other take. -/
def maxTotal? : List Pattern → Option Nat
  | [] => some 0
  | a :: rest => do return (← maxLength? a) + (← maxTotal? rest)

/-- The greatest number of bytes that one of several patterns takes. -/
def maxAny? : List Pattern → Option Nat
  | [] => none
  | [a] => maxLength? a
  | a :: rest => do return Nat.max (← maxLength? a) (← maxAny? rest)

end

/-! ## Equality and size -/

mutual

/-- Are two patterns the same? -/
def same : Pattern → Pattern → Bool
  | .empty, .empty => true
  | .literal s, .literal t => s == t
  | .char s, .char t => s == t
  | .anchor a, .anchor b => a == b
  | .rep a min max reluctant, .rep b min' max' reluctant' =>
      min == min' && max == max' && reluctant == reluctant' && same a b
  | .group m a, .group n b => m == n && same a b
  | .seq as, .seq bs => sameAll as bs
  | .alt as, .alt bs => sameAll as bs
  | _, _ => false

/-- Are two lists of patterns the same? -/
def sameAll : List Pattern → List Pattern → Bool
  | [], [] => true
  | a :: as, b :: bs => same a b && sameAll as bs
  | _, _ => false

end

mutual

/-- The number of parts of a pattern, with the pattern. -/
def size : Pattern → Nat
  | .rep a _ _ _ => size a + 1
  | .group _ a => size a + 1
  | .seq parts => totalSize parts + 1
  | .alt branches => totalSize branches + 1
  | _ => 1

/-- The number of parts of some patterns, with the patterns. -/
def totalSize : List Pattern → Nat
  | [] => 0
  | a :: rest => size a + totalSize rest

end

/-! ## Sets and sequences -/

/-- The pattern of one character of a set. -/
def ofSet (set : CharSet) : Pattern :=
  match set.single? with
  | some c => .literal [c]
  | none => .char set

/-- The parts of a pattern in a sequence. -/
def parts : Pattern → List Pattern
  | .empty => []
  | .seq parts => parts
  | a => [a]

/-- Put a part in front of a sequence; two texts become one. -/
def consPart : Pattern → List Pattern → List Pattern
  | .literal s, .literal t :: rest => .literal (s ++ t) :: rest
  | a, rest => a :: rest

/-- Patterns one after the other. -/
def sequence (patterns : List Pattern) : Pattern :=
  match (patterns.flatMap parts).foldr consPart [] with
  | [] => .empty
  | [a] => a
  | parts => .seq parts

/-! ## Choices -/

/-- The branches of a pattern in a choice. -/
def branches : Pattern → List Pattern
  | .alt branches => branches
  | a => [a]

/-- The set of a text of one character. -/
def charSet? : Pattern → Option CharSet
  | .literal [c] => some (.one c)
  | _ => none

/-- The set of a pattern that is one. -/
def set? : Pattern → Option CharSet
  | .char set => some set
  | _ => none

/-- The characters in one of some sets. -/
def unionOf (sets : List CharSet) : CharSet := sets.foldl CharSet.union .empty

/-- The parts of a sequence. -/
def seqParts? : Pattern → Option (List Pattern)
  | .seq parts => some parts
  | _ => none

/-- The number of parts that two sequences have in common at their start. -/
def commonLength : List Pattern → List Pattern → Nat
  | a :: as, b :: bs => if same a b then commonLength as bs + 1 else 0
  | _, _ => 0

/-- The number of parts that all of some sequences have in common at their start. -/
def commonStart : List (List Pattern) → Nat
  | [] => 0
  | [first] => first.length
  | first :: rest => (rest.map (commonLength first)).foldl Nat.min first.length

/-- One of several patterns.  Each round takes common parts off the front, so there are no more
rounds than parts; `rounds` is a bound on them. -/
def oneOfWithin : (rounds : Nat) → List Pattern → Pattern
  | 0, patterns => .alt patterns
  | rounds + 1, patterns =>
      match patterns.flatMap branches with
      | [] => .char .empty
      | [a] => a
      | all =>
          match all.mapM charSet?, all.mapM set?, all.mapM seqParts? with
          | some sets, _, _ => ofSet (unionOf sets)
          | _, some sets, _ => ofSet (unionOf sets)
          | _, _, some sequences =>
              let n := commonStart sequences
              if n == 0 then .alt all
              else
                let rest := oneOfWithin rounds (sequences.map fun parts => sequence (parts.drop n))
                sequence ((sequences.head?.getD []).take n ++ [rest])
          | _, _, _ => .alt all

/-- One of several patterns. -/
def oneOf (patterns : List Pattern) : Pattern := oneOfWithin (totalSize patterns + 1) patterns

/-! ## Repetitions -/

/-- A pattern repeated at least `min` and at most `max` times. -/
def repeated (a : Pattern) (min : Nat) (max : Option Nat) (reluctant : Bool) : Pattern :=
  let isEmptyText := maxLength? a == some 0
  let min := if isEmptyText then Nat.min min 1 else min
  let max := if isEmptyText then some (Nat.min (max.getD 1) 1) else max
  if min == 0 && max == some 0 then .empty
  else if min == 1 && max == some 1 then a
  else .rep a min max reluctant

end Stylesheet.Pattern
