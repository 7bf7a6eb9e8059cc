import Stylesheet.Media.Order
import Stylesheet.Node

/-!
# Merging media blocks

`normalize` tidies the media blocks of a list of nodes.

* Media blocks without nodes are removed at every depth, also those that become empty by this.
* Media blocks that stand directly in the list are merged when they have the same condition: the
  nodes of the later ones are added to the first.
* The merged blocks come after all other nodes, in the order of `Media.Order`.  Blocks that compare
  equal stay in the order in which their conditions came.

Media blocks further down are neither merged nor moved.
-/

namespace Stylesheet.Media

/-! ## Empty blocks -/

/-- A media block without nodes. -/
def isEmptyMedia : Node → Bool
  | .media _ [] => true
  | _ => false

mutual

/-- Remove empty media blocks from the block of a node. -/
def pruneIn : Node → Node
  | .layer name children => .layer name (prune children)
  | .media condition children => .media condition (prune children)
  | .rule selector children => .rule selector (prune children)
  | .atRule name params children => .atRule name params (prune children)
  | .declaration d => .declaration d
  | .comment text => .comment text
  | .statement name params => .statement name params

/-- Remove empty media blocks at any depth, innermost first. -/
def prune : List Node → List Node
  | [] => []
  | n :: ns =>
      let kept := pruneIn n
      if isEmptyMedia kept then prune ns else kept :: prune ns

end

mutual

/-- How many media blocks `prune` removes from the block of a node. -/
def prunedCountIn : Node → Nat
  | .layer _ children => prunedCount children
  | .media _ children => prunedCount children
  | .rule _ children => prunedCount children
  | .atRule _ _ children => prunedCount children
  | .declaration _ => 0
  | .comment _ => 0
  | .statement _ _ => 0

/-- How many media blocks `prune` removes. -/
def prunedCount : List Node → Nat
  | [] => 0
  | n :: ns => prunedCountIn n + (if isEmptyMedia (pruneIn n) then 1 else 0) + prunedCount ns

end

/-! ## Merging -/

/-- The nodes under one condition. -/
structure Group where
  /-- The condition. -/
  condition : String
  /-- The nodes of all blocks with this condition. -/
  children : List Node

/-- The media block of a group. -/
def Group.node (group : Group) : Node := .media group.condition group.children

/-- Add a block to the group with its condition, or start a new group at the end. -/
def addBlock (condition : String) (children : List Node) : List Group → List Group
  | [] => [⟨condition, children⟩]
  | group :: groups =>
      if group.condition = condition then
        ⟨condition, group.children ++ children⟩ :: groups
      else group :: addBlock condition children groups

/-- A list of nodes taken apart: the other nodes, the groups of media blocks, and how many blocks
went into a group that was already there. -/
structure Parts where
  /-- The nodes that are no media blocks. -/
  others : List Node := []
  /-- The groups in the order of their first blocks. -/
  groups : List Group := []
  /-- How many blocks were merged into an earlier one. -/
  merged : Nat := 0

/-- Take in the next node of a list. -/
def Parts.add (parts : Parts) : Node → Parts
  | .media condition children =>
      { parts with
        groups := addBlock condition children parts.groups
        merged :=
          if parts.groups.any (·.condition == condition) then parts.merged + 1 else parts.merged }
  | node => { parts with others := parts.others ++ [node] }

/-- A list of nodes taken apart. -/
def Parts.of (nodes : List Node) : Parts := nodes.foldl Parts.add {}

/-- The groups in the order of their conditions. -/
def sortGroups (groups : List Group) : List Group :=
  groups.mergeSort fun a b => (Order.of a.condition).le (Order.of b.condition)

/-- The nodes with empty media blocks removed and direct media blocks merged and sorted. -/
def normalize (nodes : List Node) : List Node :=
  let parts := Parts.of (prune nodes)
  parts.others ++ (sortGroups parts.groups).map Group.node

/-! ## Report -/

/-- What `normalize` did. -/
structure Report where
  /-- Empty blocks removed. -/
  emptied : Nat := 0
  /-- Blocks merged into an earlier block. -/
  merged : Nat := 0
deriving DecidableEq, Repr

/-- The sum of two reports. -/
def Report.add (a b : Report) : Report := ⟨a.emptied + b.emptied, a.merged + b.merged⟩

/-- What `normalize` does to some nodes. -/
def report (nodes : List Node) : Report := ⟨prunedCount nodes, (Parts.of (prune nodes)).merged⟩

end Stylesheet.Media
