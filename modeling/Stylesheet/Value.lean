import Stylesheet.Text

/-!
# Values

A value is a text whose *components* are separated by spaces, and whose *layers* are separated by
commas.  Separators count only at the top level: outside parentheses, square brackets and quotes,
and not right after a backslash.  `splitTopLevel` goes through the text once and keeps how many
brackets are open, which quote is open, and whether a backslash came just before.  The two kinds of
brackets are counted together, and a closing bracket too many is passed over.  Pieces are trimmed,
and blank pieces are dropped.
-/

namespace Stylesheet.Value

open Stylesheet.Text (consFirst trim isSpace)

/-- Where the splitter is in a value. -/
structure Nesting where
  /-- How many brackets are open. -/
  depth : Nat := 0
  /-- The quote that is open, if any. -/
  quote : Option Char := none
  /-- Did a backslash come just before? -/
  escaped : Bool := false
deriving DecidableEq

/-- Is a character here outside brackets and quotes and not escaped? -/
def Nesting.isTop (s : Nesting) : Bool := s.depth == 0 && s.quote.isNone && !s.escaped

/-- Where the splitter is after a character. -/
def Nesting.next (s : Nesting) (c : Char) : Nesting :=
  if s.escaped then { s with escaped := false }
  else if c == '\\' then { s with escaped := true }
  else
    match s.quote with
    | some q => if c == q then { s with quote := none } else s
    | none =>
        if c == '"' || c == '\'' then { s with quote := some c }
        else if c == '(' || c == '[' then { s with depth := s.depth + 1 }
        else if c == ')' || c == ']' then { s with depth := s.depth - 1 }
        else s

/-- The pieces of the rest of a value between separators at the top level. -/
def piecesFrom (isSeparator : Char → Bool) (s : Nesting) : List Char → List (List Char)
  | [] => [[]]
  | c :: cs =>
      if s.isTop && isSeparator c then [] :: piecesFrom isSeparator s cs
      else consFirst c (piecesFrom isSeparator (s.next c) cs)

/-- The trimmed pieces of a value between separators at the top level, without blank ones.
Backslashes, quotes and brackets cannot be separators. -/
def splitTopLevel (isSeparator : Char → Bool) (value : List Char) : List (List Char) :=
  ((piecesFrom isSeparator {} value).map trim).filter fun piece => !piece.isEmpty

/-- The components of a value, separated by spaces: `url(a b)` and `"a b"` are one each. -/
def components (value : String) : List String :=
  (splitTopLevel isSpace value.toList).map String.ofList

/-- The layers of a value, separated by commas. -/
def layers (value : String) : List String :=
  (splitTopLevel (· == ',') value.toList).map String.ofList

/-- Has the value more than one layer? -/
def isMultiLayer (value : String) : Bool := (layers value).length > 1

/-- Has the value exactly one component? -/
def isSingle (value : String) : Bool := (components value).length == 1

/-- Change every layer of a value and put the layers together again. -/
def mapLayers (f : String → String) (value : String) : String :=
  Text.join ", " ((layers value).map f)

/-! ## Examples -/

example : components "url(a b)  'c d' e" = ["url(a b)", "'c d'", "e"] := by decide

example : layers "a(1, 2), b,, c" = ["a(1, 2)", "b", "c"] := by decide

-- An escaped separator belongs to its component, and a bracket too many is passed over.
example : components "a\\ b) c" = ["a\\ b)", "c"] := by decide

end Stylesheet.Value
