import Stylesheet.Node

/-!
# Cascade layers

`Layer.organize` gathers a stylesheet into layers.

* The layers at the top level are grouped by name, in the order in which the names come; layers
  without a name go under the name of the root layer.
* All other nodes at the top level go into a layer of their own, the *orphans*, after all groups.
  Two kinds of nodes do not: comments that point to a source map stay at the top level, and
  statements `@layer a, b;` are dropped.
* Every layer block is transformed by a given function of its name and itself, and blocks that are
  then empty are dropped.
* A statement in front of the blocks fixes the order of the layers that are left: first the names of
  a given list, then the others in the order of their blocks.
-/

namespace Stylesheet.Layer

/-- A layer at the top level. -/
structure Block where
  /-- The name that is written, if any. -/
  name : Option String
  /-- The nodes in the layer. -/
  children : List Node
deriving DecidableEq

/-- The node of a layer block. -/
def Block.node (block : Block) : Node := .layer block.name block.children

/-- The name by which a block is grouped. -/
def Block.key (block : Block) : String := Node.layerKey block.name

/-- The blocks of one name in the order of the stylesheet. -/
structure Group where
  /-- The name of the layer. -/
  name : String
  /-- Its blocks. -/
  blocks : List Block
deriving DecidableEq

/-! ## Taking a stylesheet apart -/

/-- The layer block that a node is, if it is one. -/
def block? : Node → Option Block
  | .layer name children => some ⟨name, children⟩
  | _ => none

/-- A statement that only orders layers. -/
def isStatement : Node → Bool
  | .statement name _ => name == "layer"
  | _ => false

/-- A comment that points to a source map. -/
def isSourceMap : Node → Bool
  | .comment text => Node.isSourceMapComment text
  | _ => false

/-- Add a block to the group of its name, or start a new group at the end. -/
def addBlock (block : Block) : List Group → List Group
  | [] => [⟨block.key, [block]⟩]
  | group :: groups =>
      if group.name = block.key then ⟨group.name, group.blocks ++ [block]⟩ :: groups
      else group :: addBlock block groups

/-- The layers at the top level, grouped by name. -/
def groups (nodes : List Node) : List Group :=
  (nodes.filterMap block?).foldl (fun groups block => addBlock block groups) []

/-- The nodes at the top level that are neither layers nor statements that order layers. -/
def rest (nodes : List Node) : List Node :=
  nodes.filter fun node => (block? node).isNone && !isStatement node

/-- The layer of all nodes except source map comments, if there is one of them. -/
def orphans? (name : String) (nodes : List Node) : Option Block :=
  match nodes.filter fun node => !isSourceMap node with
  | [] => none
  | orphans => some ⟨some name, orphans⟩

/-! ## The order of layers -/

/-- The names of the layers that are left, those of `order` first. -/
def orderNames (survivors order : List String) : List String :=
  (order.filter survivors.contains ++ survivors.filter fun name => !order.contains name).eraseDups

/-- The statement that orders layers, if there are any. -/
def orderStatement? (names : List String) : Option Node :=
  if names.isEmpty then none else some (.statement "layer" (Text.join ", " names))

/-! ## Putting it together -/

/-- What the user asks of the layers. -/
structure Plan where
  /-- The name of the layer for orphans. -/
  orphansName : String
  /-- The names that come first, in this order. -/
  order : List String

/-- All layer blocks with the names of their groups, in the order in which they are transformed:
group by group, and the orphans last. -/
def visits (plan : Plan) (nodes : List Node) : List (String × Block) :=
  ((groups nodes).flatMap fun group => group.blocks.map fun block => (group.name, block)) ++
    ((orphans? plan.orphansName (rest nodes)).map fun block => (plan.orphansName, block)).toList

/-- An organized stylesheet. -/
structure Organized where
  /-- The nodes at the top level. -/
  nodes : List Node
  /-- The names of the layers in their order. -/
  names : List String

/-- The visited blocks after the transformation, without empty ones. -/
def survivors (transform : String → Block → Block) (visited : List (String × Block)) :
    List (String × Block) :=
  (visited.map fun (name, block) => (name, transform name block)).filter fun (_, block) =>
    !block.children.isEmpty

/-- Gather a stylesheet into layers. -/
def organize (plan : Plan) (transform : String → Block → Block) (nodes : List Node) : Organized :=
  let kept := survivors transform (visits plan nodes)
  let names := orderNames (kept.map Prod.fst).eraseDups plan.order
  { nodes :=
      (orderStatement? names).toList ++ kept.map (fun (_, block) => block.node) ++
        nodes.filter isSourceMap
    names }

end Stylesheet.Layer
