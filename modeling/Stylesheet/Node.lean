import Stylesheet.Text

/-!
# The stylesheet tree

A stylesheet is a list of nodes.  A node is a declaration, a comment, a rule with its selector, a
cascade layer, a media block with its condition, or any other at-rule, with or without a block.
All blocks hold nodes of any kind, so a rule may nest rules, and declarations may stand at the top.

Nodes keep their texts as they stand: nothing here trims or changes case.

`Node.retain` removes nodes at any depth, `Node.bodies` lists the bodies of all rules in document
order, and `Node.mapBodies` changes them.
-/

namespace Stylesheet

/-- A property with its value. -/
structure Declaration where
  /-- The property name. -/
  property : String
  /-- The value, without an `!important` at its end. -/
  value : String
  /-- Is the declaration marked `!important`? -/
  important : Bool := false
deriving DecidableEq, Repr

/-- A declaration with its property in lower case, not marked important. -/
def Declaration.normal (property value : String) : Declaration where
  property := Text.lowercase property
  value := value

/-- A node of the stylesheet tree. -/
inductive Node where
  /-- A cascade layer `@layer name { … }`; the name may be missing. -/
  | layer (name : Option String) (children : List Node)
  /-- A media block `@media condition { … }`. -/
  | media (condition : String) (children : List Node)
  /-- A rule `selector { … }`. -/
  | rule (selector : String) (children : List Node)
  /-- A declaration `property: value`. -/
  | declaration (d : Declaration)
  /-- A comment, given without its marks. -/
  | comment (text : String)
  /-- An at-rule without a block, `@name params;`. -/
  | statement (name params : String)
  /-- Any other at-rule with a block, `@name params { … }`. -/
  | atRule (name params : String) (children : List Node)
deriving Repr

/-- A stylesheet: the nodes at its top level. -/
structure Document where
  /-- The top-level nodes in document order. -/
  nodes : List Node := []
deriving Repr

namespace Node

/-! ## Parts of a node -/

/-- The nodes in the block of a node, if it has a block. -/
def children? : Node → Option (List Node)
  | .layer _ children => some children
  | .media _ children => some children
  | .rule _ children => some children
  | .atRule _ _ children => some children
  | .declaration _ => none
  | .comment _ => none
  | .statement _ _ => none

/-- The node with other nodes in its block; a node without a block stays as it is. -/
def withChildren (children : List Node) : Node → Node
  | .layer name _ => .layer name children
  | .media condition _ => .media condition children
  | .rule selector _ => .rule selector children
  | .atRule name params _ => .atRule name params children
  | node => node

/-- The declaration that a node is, if it is one. -/
def declaration? : Node → Option Declaration
  | .declaration d => some d
  | _ => none

/-- The name under which layers without a name are known. -/
def rootLayerName : String := "root"

/-- The name by which a layer is grouped. -/
def layerKey (name : Option String) : String := name.getD rootLayerName

/-- A comment that starts with `!` is meant to stay. -/
def isBangComment (text : String) : Bool := Text.startsWith "!" text

/-- A comment that points to a source map. -/
def isSourceMapComment (text : String) : Bool :=
  Text.occurs "sourceMappingURL".toList text.toList

/-- An at-rule whose block holds keyframes: its rules have no selectors. -/
def isKeyframes (name : String) : Bool := Text.endsWith "keyframes" name

/-! ## Equality -/

mutual

/-- Equality of nodes. -/
def decEq : (a b : Node) → Decidable (a = b)
  | .layer n c, .layer n' c' =>
      match decEqList c c' with
      | isTrue h =>
          if hn : n = n' then isTrue (by rw [h, hn]) else isFalse (by simp [hn])
      | isFalse h => isFalse (by simp [h])
  | .media n c, .media n' c' =>
      match decEqList c c' with
      | isTrue h =>
          if hn : n = n' then isTrue (by rw [h, hn]) else isFalse (by simp [hn])
      | isFalse h => isFalse (by simp [h])
  | .rule n c, .rule n' c' =>
      match decEqList c c' with
      | isTrue h =>
          if hn : n = n' then isTrue (by rw [h, hn]) else isFalse (by simp [hn])
      | isFalse h => isFalse (by simp [h])
  | .declaration d, .declaration d' =>
      if h : d = d' then isTrue (by rw [h]) else isFalse (by simp [h])
  | .comment t, .comment t' =>
      if h : t = t' then isTrue (by rw [h]) else isFalse (by simp [h])
  | .statement n p, .statement n' p' =>
      if h : n = n' ∧ p = p' then isTrue (by rw [h.1, h.2]) else isFalse (by simpa using h)
  | .atRule n p c, .atRule n' p' c' =>
      match decEqList c c' with
      | isTrue h =>
          if hn : n = n' ∧ p = p' then isTrue (by rw [h, hn.1, hn.2])
          else isFalse (by simp only [atRule.injEq]; exact fun e => hn ⟨e.1, e.2.1⟩)
      | isFalse h => isFalse (by simp [h])
  | .layer .., .media .. | .layer .., .rule .. | .layer .., .declaration .. | .layer .., .comment ..
  | .layer .., .statement .. | .layer .., .atRule .. => isFalse (by simp)
  | .media .., .layer .. | .media .., .rule .. | .media .., .declaration .. | .media .., .comment ..
  | .media .., .statement .. | .media .., .atRule .. => isFalse (by simp)
  | .rule .., .layer .. | .rule .., .media .. | .rule .., .declaration .. | .rule .., .comment ..
  | .rule .., .statement .. | .rule .., .atRule .. => isFalse (by simp)
  | .declaration .., .layer .. | .declaration .., .media .. | .declaration .., .rule ..
  | .declaration .., .comment .. | .declaration .., .statement ..
  | .declaration .., .atRule .. => isFalse (by simp)
  | .comment .., .layer .. | .comment .., .media .. | .comment .., .rule ..
  | .comment .., .declaration .. | .comment .., .statement ..
  | .comment .., .atRule .. => isFalse (by simp)
  | .statement .., .layer .. | .statement .., .media .. | .statement .., .rule ..
  | .statement .., .declaration .. | .statement .., .comment ..
  | .statement .., .atRule .. => isFalse (by simp)
  | .atRule .., .layer .. | .atRule .., .media .. | .atRule .., .rule ..
  | .atRule .., .declaration .. | .atRule .., .comment ..
  | .atRule .., .statement .. => isFalse (by simp)

/-- Equality of node lists. -/
def decEqList : (a b : List Node) → Decidable (a = b)
  | [], [] => isTrue rfl
  | [], _ :: _ => isFalse (by simp)
  | _ :: _, [] => isFalse (by simp)
  | a :: as, b :: bs =>
      match decEq a b, decEqList as bs with
      | isTrue h, isTrue hs => isTrue (by rw [h, hs])
      | isFalse h, _ => isFalse (by simp [h])
      | _, isFalse h => isFalse (by simp [h])

end

instance : DecidableEq Node := decEq

/-! ## Going through a tree -/

mutual

/-- Remove from the block of a node every node that `keep` refuses, at any depth. -/
def retainIn (keep : Node → Bool) : Node → Node
  | .layer name children => .layer name (retain keep children)
  | .media condition children => .media condition (retain keep children)
  | .rule selector children => .rule selector (retain keep children)
  | .atRule name params children => .atRule name params (retain keep children)
  | .declaration d => .declaration d
  | .comment text => .comment text
  | .statement name params => .statement name params

/-- Remove every node that `keep` refuses, at any depth. -/
def retain (keep : Node → Bool) : List Node → List Node
  | [] => []
  | n :: ns => if keep n then retainIn keep n :: retain keep ns else retain keep ns

end

mutual

/-- The nodes in the block of a node at which `retain` looks, in order. -/
def examinedIn (keep : Node → Bool) : Node → List Node
  | .layer _ children => children ++ examinedBelow keep children
  | .media _ children => children ++ examinedBelow keep children
  | .rule _ children => children ++ examinedBelow keep children
  | .atRule _ _ children => children ++ examinedBelow keep children
  | .declaration _ => []
  | .comment _ => []
  | .statement _ _ => []

/-- The nodes below the given ones at which `retain` looks, in order. -/
def examinedBelow (keep : Node → Bool) : List Node → List Node
  | [] => []
  | n :: ns => (if keep n then examinedIn keep n else []) ++ examinedBelow keep ns

end

/-- The nodes at which `retain` looks, in order: a whole list, and then the blocks of those of its
nodes that it keeps. -/
def examined (keep : Node → Bool) (nodes : List Node) : List Node :=
  nodes ++ examinedBelow keep nodes

mutual

/-- The bodies of the rules at and below a node, an outer body before those inside it. -/
def bodiesAt : Node → List (List Node)
  | .rule _ children => children :: bodies children
  | .layer _ children => bodies children
  | .media _ children => bodies children
  | .atRule _ _ children => bodies children
  | .declaration _ => []
  | .comment _ => []
  | .statement _ _ => []

/-- The bodies of all rules at any depth in document order, an outer body before those inside
it. -/
def bodies : List Node → List (List Node)
  | [] => []
  | n :: ns => bodiesAt n ++ bodies ns

end

mutual

/-- Change the bodies of the rules at and below a node. -/
def mapBodiesAt (f : List Node → List Node) : Node → Node
  | .rule selector children => .rule selector (f (mapBodies f children))
  | .layer name children => .layer name (mapBodies f children)
  | .media condition children => .media condition (mapBodies f children)
  | .atRule name params children => .atRule name params (mapBodies f children)
  | .declaration d => .declaration d
  | .comment text => .comment text
  | .statement name params => .statement name params

/-- Change the bodies of all rules at any depth, inner bodies first. -/
def mapBodies (f : List Node → List Node) : List Node → List Node
  | [] => []
  | n :: ns => mapBodiesAt f n :: mapBodies f ns

end

end Node

deriving instance DecidableEq for Document

end Stylesheet
