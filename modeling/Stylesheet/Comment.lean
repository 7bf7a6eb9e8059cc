import Stylesheet.Node

/-!
# Comments

Comments can be removed altogether, or except for those that start with `!`.  At the top level
comments that point to a source map always stay.
-/

namespace Stylesheet.Comment

/-- Which comments are removed. -/
inductive Removal where
  /-- None. -/
  | none
  /-- Those that do not start with `!`. -/
  | nonBang
  /-- All. -/
  | all
deriving DecidableEq, Repr

/-- Is a comment with this text removed? -/
def Removal.removes (removal : Removal) (text : String) : Bool :=
  match removal with
  | .none => false
  | .nonBang => !Node.isBangComment text
  | .all => true

/-- Does a node stay? -/
def keeps (removal : Removal) : Node → Bool
  | .comment text => !removal.removes text
  | _ => true

/-- Does a node at the top level stay? -/
def keepsAtRoot (removal : Removal) : Node → Bool
  | .comment text => Node.isSourceMapComment text || !removal.removes text
  | _ => true

/-- The nodes without the comments to remove, at any depth. -/
def remove (removal : Removal) (nodes : List Node) : List Node := Node.retain (keeps removal) nodes

/-- The nodes without the comments to remove at the top level. -/
def removeAtRoot (removal : Removal) (nodes : List Node) : List Node :=
  nodes.filter (keepsAtRoot removal)

end Stylesheet.Comment
