import Stylesheet.Shorthand

/-!
# Fonts

The font longhands of a rule are fused into `font` when size and family are declared, and when the
shorthand can carry all values: it knows only two variants and the stretch keywords, and no value
may be blank.  The shorthand takes the place of the family.
-/

namespace Stylesheet.Font

/-- The longhands that `font` takes, in the order in which it writes them. -/
def longhands : List String :=
  ["font-style", "font-variant", "font-weight", "font-stretch", "font-size", "line-height",
    "font-family"]

/-- The stretch keywords that `font` takes. -/
def stretchKeywords : List String :=
  ["normal", "ultra-condensed", "extra-condensed", "condensed", "semi-condensed", "semi-expanded",
    "expanded", "extra-expanded", "ultra-expanded"]

/-- A value in the form in which keywords are compared. -/
def keyword (value : String) : String := Text.lowercase (Text.strip value)

/-- A variant that `font` takes. -/
def isVariant (value : String) : Bool := keyword value == "normal" || keyword value == "small-caps"

/-- A stretch that `font` takes. -/
def isStretch (value : String) : Bool := stretchKeywords.contains (keyword value)

/-- A value that is not blank. -/
def isGiven (value : String) : Bool := !Text.blank value

/-- The value of `font`: style, variant, weight, stretch, size with the line height after a slash,
and family. -/
def compose : List (Option String) → Option String
  | [style, variant, weight, stretch, some size, lineHeight, some family] =>
      if style.all isGiven && variant.all isVariant && weight.all isGiven &&
          stretch.all isStretch && isGiven size && lineHeight.all isGiven && isGiven family then
        let sized :=
          match lineHeight with
          | some height => size ++ "/" ++ height
          | none => size
        some (Text.join " "
          ([style, variant, weight, stretch].filterMap id ++ [sized, family]))
      else none
  | _ => none

/-- The `font` family. -/
def family : Family where
  shorthand := "font"
  longhands := longhands
  compose := compose
  interferes := Text.startsWith "font"
  anchor := some 6

/-- The body with its longhands fused, and how many shorthands that made. -/
def fuseBody (body : List Node) : List Node × Nat := family.fuse body

/-- The tree with all rule bodies treated. -/
def optimize (nodes : List Node) : List Node := Node.mapBodies (fun body => (fuseBody body).1) nodes

/-- How many shorthands `optimize` makes. -/
def fusedCount (nodes : List Node) : Nat :=
  (Node.bodies nodes).foldr (fun body n => (fuseBody body).2 + n) 0

end Stylesheet.Font
