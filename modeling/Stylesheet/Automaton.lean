import Stylesheet.Automaton.CharSet
import Stylesheet.Automaton.Words
import Stylesheet.Pattern.Compose

/-!
# Automata of patterns

A pattern is searched by two automata, one that reads the text forwards and one that reads it
backwards.  `Pattern.fits` says whether both are within the limit.

`Draft.addPattern` draws up a pattern part by part.

* A text has a state for each byte, an anchor and the empty text have one state.
* A group has a state in front and one behind, if it is read forwards; backwards it has none.
* Parts one after the other are linked, backwards in the opposite order.
* A choice is a choice between its branches, which meet in one state.  A choice between texts is a
  tree.
* Repetition copies the part as often as it has to come.  If there is no greatest count then the
  last copy is followed by a choice that goes back to it.  Else each further copy is preceded by a
  choice that can leave, and these meet in one state.

In front of all comes a loop over any bytes, since a match may start anywhere, unless the pattern
holds only at that end of the text (`startsAtStart`, `endsAtEnd`).
-/

namespace Stylesheet

namespace Pattern

/-! ## Patterns that hold at the ends of the text -/

/-- Does the pattern take no text? -/
def takesNothing (a : Pattern) : Bool := maxLength? a == some 0

mutual

/-- Does the pattern start with the start of the text, whatever it matches? -/
def startsAtStart : Pattern → Bool
  | .anchor a => a == .textStart
  | .rep a min _ _ => 0 < min && startsAtStart a
  | .group _ a => startsAtStart a
  | .seq parts => anyStartsAtStart parts
  | .alt branches => allStartAtStart branches
  | _ => false

/-- Does one of the parts start with the start of the text, with no text before it? -/
def anyStartsAtStart : List Pattern → Bool
  | [] => false
  | a :: rest => startsAtStart a || (takesNothing a && anyStartsAtStart rest)

/-- Do all of the branches start with the start of the text? -/
def allStartAtStart : List Pattern → Bool
  | [] => true
  | a :: rest => startsAtStart a && allStartAtStart rest

end

mutual

/-- Does the pattern end with the end of the text, whatever it matches? -/
def endsAtEnd : Pattern → Bool
  | .anchor a => a == .textEnd
  | .rep a min _ _ => 0 < min && endsAtEnd a
  | .group _ a => endsAtEnd a
  | .seq parts => anyEndsAtEnd parts
  | .alt branches => allEndAtEnd branches
  | _ => false

/-- Does one of the parts end with the end of the text, with no text after it? -/
def anyEndsAtEnd : List Pattern → Bool
  | [] => false
  | a :: rest => anyEndsAtEnd rest || (rest.all takesNothing && endsAtEnd a)

/-- Do all of the branches end with the end of the text? -/
def allEndAtEnd : List Pattern → Bool
  | [] => true
  | a :: rest => endsAtEnd a && allEndAtEnd rest

end

/-- The text of a pattern that is one. -/
def text? : Pattern → Option (List Char)
  | .literal text => some text
  | _ => none

end Pattern

namespace Automaton

open Pattern (minLength? text?)

/-! ## Parts -/

/-- Add a repetition of a part that takes at least `least` bytes, if it takes any text. -/
def Draft.addRepetition (part : Draft → Draft) (least : Option Nat) (min : Nat)
    (max : Option Nat) (d : Draft) : Draft :=
  match min, max with
  | 0, some 1 => (part (d.addStates 1)).link.addStates 1 |>.addLinks 2
  | 0, none =>
      if least.any (0 < ·) then (part (d.addStates 1)).link.addLinks 1 |>.endInChoice
      else (part d).link.addStates 3 |>.addLinks 4
  | n + 1, none => (part (d.copies part n).link).link.addStates 1 |>.addLinks 1 |>.endInChoice
  | m, some n =>
      let d := if m == 0 then d.addStates 1 else d.copies part m
      if m == n then d
      else
        let optional (d : Draft) : Draft := (part (d.addStates 1)).addLinks 2
        ((d.addStates 1).copies optional (n - m)).link

mutual

/-- Add a pattern. -/
def Draft.addPattern (backwards : Bool) : Pattern → Draft → Draft
  | .empty, d => d.addStates 1
  | .literal text, d => d.addStates (Pattern.byteLength text)
  | .char set, d => d.addSet backwards set
  | .anchor _, d => d.addStates 1
  | .rep a min max _, d =>
      d.addRepetition (Draft.addPattern backwards a) (minLength? a) min max
  | .group _ a, d =>
      if backwards then Draft.addPattern backwards a d
      else (Draft.addPattern backwards a (d.addStates 1)).link.addStates 1
  | .seq parts, d => if backwards then Draft.addLastFirst parts d else Draft.addFirstLast parts d
  | .alt branches, d =>
      match branches.mapM text? with
      | some texts =>
          let words := texts.map Unicode.encodeText
          d.addWords (if backwards then words.map List.reverse else words)
      | none => Draft.addBranches backwards branches 2 d

/-- Add parts one after the other, the first one first. -/
def Draft.addFirstLast : List Pattern → Draft → Draft
  | [], d => d
  | a :: rest, d => Draft.addFirstLast rest (Draft.addPattern false a d.link)

/-- Add parts one after the other, the last one first. -/
def Draft.addLastFirst : List Pattern → Draft → Draft
  | [], d => d
  | a :: rest, d => Draft.addPattern true a (Draft.addLastFirst rest d).link

/-- Add branches between the two ends of a choice.  The ends come after the first two branches;
`wait` is the number of branches before them. -/
def Draft.addBranches (backwards : Bool) : List Pattern → (wait : Nat) → Draft → Draft
  | [], _, d => d
  | a :: rest, wait, d =>
      let d := (Draft.addPattern backwards a d).link.addLinks 1
      Draft.addBranches backwards rest (wait - 1) (if wait == 1 then d.addStates 2 else d)

end

/-! ## Whole automata -/

/-- Start an automaton: with a loop over any bytes, if a match may start anywhere. -/
def Draft.start (anywhere : Bool) : Draft :=
  let d : Draft := {}
  if anywhere then ((d.addStates 2).addBranching 1).addLinks 2 else d.addStates 1

/-- The automaton that reads the text forwards. -/
def Draft.forwards (pattern : Pattern) : Draft :=
  let d := (Draft.start !pattern.startsAtStart).addPattern false (.group 0 pattern)
  d.addStates 1

/-- The automaton that reads the text backwards. -/
def Draft.backwards (pattern : Pattern) : Draft :=
  ((Draft.start !pattern.endsAtEnd).addPattern true pattern).link.addStates 1

/-! ## Examples -/

example : (Draft.forwards (.literal ['a'])).bytes = 240 := by decide

example : (Draft.forwards (.seq [.anchor .textStart, .literal ['a']])).bytes = 192 := by decide

end Automaton

/-- Are the automata of a pattern within the limit? -/
def Pattern.fits (pattern : Pattern) : Bool :=
  (Automaton.Draft.forwards pattern).fits && (Automaton.Draft.backwards pattern).fits

end Stylesheet
