import Stylesheet.Shorthand
import Stylesheet.Value

/-!
# Borders

Border longhands are fused in three groups.

* *Sides*: width, style and color of the border, or of one of its sides, when all three are
  declared with one component each.
* *Images*: at least two of the five `border-image` longhands.  Width and outset need a slice, which
  they follow after slashes.
* *Radii*: the radii of all four corners, with one component each.

The groups are tried one after the other on the same body, sides first, the whole border before
its sides.
-/

namespace Stylesheet.Border

/-! ## Sides -/

/-- The sides of a border, the whole border first. -/
def directions : List String :=
  ["", "top", "right", "bottom", "left", "inline", "inline-start", "inline-end", "block",
    "block-start", "block-end"]

/-- The shorthand of a side. -/
def sideName (direction : String) : String :=
  if direction.isEmpty then "border" else "border-" ++ direction

/-- A property that sets part of the width, style or color of some side. -/
def isSideProperty (name : String) : Bool :=
  Text.startsWith "border" name && !Text.endsWith "-radius" name &&
    !Text.startsWith "border-image" name && name != "border-collapse" && name != "border-spacing"

/-- The value of a side: three values with one component each. -/
def composeSide : List (Option String) → Option String
  | [some width, some style, some color] =>
      if [width, style, color].all Value.isSingle then some (Text.join " " [width, style, color])
      else none
  | _ => none

/-- The family of a side.  The whole border also resets the border image. -/
def side (direction : String) : Family where
  shorthand := sideName direction
  longhands :=
    [sideName direction ++ "-width", sideName direction ++ "-style", sideName direction ++ "-color"]
  compose := composeSide
  interferes := fun name =>
    isSideProperty name || (direction.isEmpty && Text.startsWith "border-image" name)

/-! ## Images -/

/-- The longhands of `border-image` in the order in which it writes them. -/
def imageLonghands : List String :=
  ["border-image-source", "border-image-slice", "border-image-width", "border-image-outset",
    "border-image-repeat"]

/-- The slice with the width and outset after it. -/
def composeSlice : (slice width outset : Option String) → Option (List String)
  | none, none, none => some []
  | none, _, _ => none
  | some slice, none, none => some [slice]
  | some slice, some width, none => some [slice ++ " / " ++ width]
  | some slice, none, some outset => some [slice ++ " / / " ++ outset]
  | some slice, some width, some outset => some [slice ++ " / " ++ width ++ " / " ++ outset]

/-- The value of `border-image` for at least two of its longhands. -/
def composeImage : List (Option String) → Option String
  | [source, slice, width, outset, tiling] => do
      if ([source, slice, width, outset, tiling].filterMap id).length < 2 then none
      else
        let middle ← composeSlice slice width outset
        return Text.join " " (source.toList ++ middle ++ tiling.toList)
  | _ => none

/-- The `border-image` family. -/
def image : Family where
  shorthand := "border-image"
  longhands := imageLonghands
  compose := composeImage
  interferes := fun name => name == "border-image" || name == "border"

/-! ## Radii -/

/-- The corners clockwise from the top left. -/
def radiusLonghands : List String :=
  ["border-top-left-radius", "border-top-right-radius", "border-bottom-right-radius",
    "border-bottom-left-radius"]

/-- The value of `border-radius`: the top corners, a slash, and the bottom corners. -/
def composeRadius : List (Option String) → Option String
  | [some topLeft, some topRight, some bottomRight, some bottomLeft] =>
      if [topLeft, topRight, bottomRight, bottomLeft].all Value.isSingle then
        some (topLeft ++ " " ++ topRight ++ " / " ++ bottomRight ++ " " ++ bottomLeft)
      else none
  | _ => none

/-- The `border-radius` family. -/
def radius : Family where
  shorthand := "border-radius"
  longhands := radiusLonghands
  compose := composeRadius
  interferes := (· == "border-radius")

/-! ## Rule bodies -/

/-- How many shorthands of each group were made. -/
structure Report where
  /-- Sides. -/
  sides : Nat := 0
  /-- Border images. -/
  images : Nat := 0
  /-- Corner radii. -/
  radii : Nat := 0
deriving DecidableEq, Repr

/-- The sum of two reports. -/
def Report.add (a b : Report) : Report :=
  ⟨a.sides + b.sides, a.images + b.images, a.radii + b.radii⟩

/-- The body with the given sides fused one after the other, and how many were. -/
def fuseSides (body : List Node) : List String → List Node × Nat
  | [] => (body, 0)
  | direction :: rest =>
      let (body, n) := (side direction).fuse body
      let (body, m) := fuseSides body rest
      (body, n + m)

/-- The body with all three groups fused, and what was. -/
def fuseBody (body : List Node) : List Node × Report :=
  let (body, sides) := fuseSides body directions
  let (body, images) := image.fuse body
  let (body, radii) := radius.fuse body
  (body, ⟨sides, images, radii⟩)

/-- The tree with all rule bodies treated. -/
def optimize (nodes : List Node) : List Node := Node.mapBodies (fun body => (fuseBody body).1) nodes

/-- What `optimize` fuses. -/
def report (nodes : List Node) : Report :=
  ((Node.bodies nodes).map fun body => (fuseBody body).2).foldl Report.add {}

end Stylesheet.Border
