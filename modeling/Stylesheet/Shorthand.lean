import Stylesheet.Longhand

/-!
# Shorthands

A *family* is a shorthand property with the longhands that it stands for.  `Family.fuse?` replaces
the longhands in the body of a rule by one declaration of the shorthand.  It does so only when the
body means the same afterwards, which the following conditions are for.

* No longhand is declared twice.
* The shorthand can carry the values (`compose`).
* All declared longhands are important, or none is.
* No other declaration of the family stands before the last longhand, since the shorthand would
  then override it or be overridden by it (`interferes`).  Some declarations are in the way wherever
  they stand (`excludes`).

The new declaration takes the place of the last longhand, or of one that the family names.
-/

namespace Stylesheet

/-- A shorthand property with its longhands. -/
structure Family where
  /-- The shorthand property. -/
  shorthand : String
  /-- The longhand properties in the order in which `compose` takes their values. -/
  longhands : List String
  /-- The value of the shorthand for values of the longhands, if it can carry them. -/
  compose : List (Option String) → Option String
  /-- Properties that may not be declared before the last longhand. -/
  interferes : String → Bool
  /-- Properties that may not be declared at all. -/
  excludes : String → Bool := fun _ => false
  /-- The longhand whose place the shorthand takes, by its number; the last one in the body if not
  given. -/
  anchor : Option Nat := none

namespace Family

/-- The position that the shorthand takes. -/
def anchorIn? (family : Family) (slots : Slots) : Option Nat :=
  match family.anchor with
  | some i => slots.slot? i
  | none => slots.indices.getLast?

/-- The body with the longhands of a family replaced by the shorthand, if that can be done. -/
def fuse? (family : Family) (body : List Node) : Option (List Node) := do
  let slots ← Slots.locate body family.longhands
  let value ← family.compose (slots.values body)
  let important ← slots.sharedImportance? body
  let anchor ← family.anchorIn? slots
  if body.any (fun node => node.declaration?.any fun d => family.excludes d.property) then none
  else if slots.hasInterference body family.interferes then none
  else some (Body.replaceWith body slots.indices anchor ⟨family.shorthand, value, important⟩)

/-- The body after trying to fuse a family, and how many shorthands that made. -/
def fuse (family : Family) (body : List Node) : List Node × Nat :=
  match family.fuse? body with
  | some fused => (fused, 1)
  | none => (body, 0)

end Family

end Stylesheet
