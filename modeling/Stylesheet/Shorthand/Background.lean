import Stylesheet.Shorthand
import Stylesheet.Value

/-!
# Backgrounds

Values of background properties are brought into a short form, and the background longhands of a
rule are fused into `background`.

* A pair of repeat keywords with a one-word form is written in that form.
* One or two position keywords become percentages, horizontal first.  They stay as they are when a
  length or percentage stands next to them, since they are then the edges of an offset, and when two
  of them are on one axis.
* The shorthand takes at least two of the four longhands, each with a single layer, and only in a
  body without another `background`.
-/

namespace Stylesheet.Background

open Stylesheet.Text (sameIgnoringCase)

/-! ## Repeat keywords -/

/-- The one-word form of a pair of repeat keywords. -/
def repeatPair? (first second : String) : Option String :=
  match Text.lowercase first, Text.lowercase second with
  | "repeat", "no-repeat" => some "repeat-x"
  | "no-repeat", "repeat" => some "repeat-y"
  | "repeat", "repeat" => some "repeat"
  | "no-repeat", "no-repeat" => some "no-repeat"
  | _, _ => none

/-- Shorten pairs of repeat keywords from the left. -/
def collapsePairs : List String → List String
  | [] => []
  | [token] => [token]
  | first :: second :: rest =>
      match repeatPair? first second with
      | some single => single :: collapsePairs rest
      | none => first :: collapsePairs (second :: rest)

/-- The value with its pairs of repeat keywords shortened. -/
def collapseRepeat (value : String) : String :=
  Text.join " " (collapsePairs (Value.components value))

/-! ## Position keywords -/

/-- The axis that a position keyword is for. -/
inductive Axis where
  /-- `left` and `right`. -/
  | horizontal
  /-- `top` and `bottom`. -/
  | vertical
  /-- `center`. -/
  | either
deriving DecidableEq

/-- The percentage and the axis of a position keyword. -/
def keyword? (token : String) : Option (String × Axis) :=
  match Text.lowercase token with
  | "left" => some ("0%", .horizontal)
  | "right" => some ("100%", .horizontal)
  | "top" => some ("0%", .vertical)
  | "bottom" => some ("100%", .vertical)
  | "center" => some ("50%", .either)
  | _ => none

/-- The two percentages of one or two position keywords, horizontal first. -/
def keywordPosition? : List String → Option (List String)
  | [single] => do
      let (percent, axis) ← keyword? single
      match axis with
      | .horizontal => return [percent, "50%"]
      | .vertical => return ["50%", percent]
      | .either => return ["50%", "50%"]
  | [first, second] => do
      let (percent, axis) ← keyword? first
      let (percent', axis') ← keyword? second
      match axis, axis' with
      | .horizontal, .horizontal => none
      | .vertical, .vertical => none
      | .vertical, _ => return [percent', percent]
      | _, .horizontal => return [percent', percent]
      | _, _ => return [percent, percent']
  | _ => none

/-- A length or percentage: it starts with a digit, a point or a sign, or is a `calc()`. -/
def isOffset (token : String) : Bool :=
  Text.headIs (fun c => c.isDigit || c == '.' || c == '-' || c == '+') token.toList ||
    Text.startsWith "calc(" token

/-- A run of position keywords between two other components, as percentages if that is possible. -/
def normalizeRun (before : Option String) (run : List String) (after : Option String) :
    List String :=
  match keywordPosition? run with
  | some percentages => if before.any isOffset || after.any isOffset then run else percentages
  | none => run

/-- The rest of a layer with its position keywords as percentages.  `run` are the keywords just
passed and `before` is the component before them. -/
def normalizeFrom (before : Option String) (run : List String) : List String → List String
  | [] => normalizeRun before run none
  | token :: rest =>
      if (keyword? token).isSome then normalizeFrom before (run ++ [token]) rest
      else normalizeRun before run (some token) ++ token :: normalizeFrom (some token) [] rest

/-- The layer with its position keywords as percentages. -/
def normalizeLayer (layer : String) : String :=
  Text.join " " (normalizeFrom none [] (Value.components layer))

/-- The value with the position keywords of all layers as percentages. -/
def normalizePosition (value : String) : String := Value.mapLayers normalizeLayer value

/-! ## Rule bodies -/

/-- The short form of a value of a property. -/
def normalizeValue (property value : String) : String :=
  match property with
  | "background" => Value.mapLayers (fun layer => normalizeLayer (collapseRepeat layer)) value
  | "background-repeat" => Value.mapLayers collapseRepeat value
  | "background-position" => normalizePosition value
  | _ => value

/-- The node with its value in short form, if it is a declaration. -/
def normalizeNode : Node → Node
  | .declaration d => .declaration { d with value := normalizeValue d.property d.value }
  | node => node

/-- The longhands that `background` takes, in the order in which it writes them. -/
def longhands : List String :=
  ["background-color", "background-image", "background-repeat", "background-position"]

/-- The value of `background`: the values of at least two longhands, each with one layer. -/
def compose (values : List (Option String)) : Option String :=
  let given := values.filterMap id
  if given.length < 2 || given.any Value.isMultiLayer then none else some (Text.join " " given)

/-- The `background` family. -/
def family : Family where
  shorthand := "background"
  longhands := longhands
  compose := compose
  interferes := Text.startsWith "background"
  excludes := (· == "background")

/-- The body with its background values in short form and its longhands fused, and how many
shorthands that made. -/
def fuseBody (body : List Node) : List Node × Nat := family.fuse (body.map normalizeNode)

/-- The tree with all rule bodies treated. -/
def optimize (nodes : List Node) : List Node := Node.mapBodies (fun body => (fuseBody body).1) nodes

/-- How many shorthands `optimize` makes. -/
def fusedCount (nodes : List Node) : Nat :=
  (Node.bodies nodes).foldr (fun body n => (fuseBody body).2 + n) 0

end Stylesheet.Background
