import Stylesheet.Layer
import Stylesheet.Proofs.Gathering

/-!
# The parts of a stylesheet

`Layer.organize` takes a stylesheet apart into groups of layer blocks and the other nodes, and visits what
it finds.  What is visited can be told from the stylesheet without this: the distinct keys of its layer
blocks in the order in which they occur first, for each key the blocks that have it, and the orphans
(`visits_eq`).  So each layer block is visited once, and so are the orphans (`visits_perm`).
-/

namespace Stylesheet.Layer

/-! ## Blocks and orphans -/

/-- The layer blocks at the top level. -/
def blocks (nodes : List Node) : List Block := nodes.filterMap block?

/-- The keys of the layer blocks at the top level, in the order in which they occur first. -/
def keys (nodes : List Node) : List String := ((blocks nodes).map Block.key).eraseDups

/-- The layer blocks at the top level that have a key. -/
def blocksOf (key : String) (nodes : List Node) : List Block :=
  (blocks nodes).filter fun block => block.key = key

/-- A node that goes into the layer of the orphans when it stands at the top level: it is no layer, no
statement that orders layers and no comment that points to a source map. -/
def isOrphan : Node → Bool
  | .layer _ _ => false
  | .statement name _ => name != "layer"
  | .comment text => !Node.isSourceMapComment text
  | .media _ _ => true
  | .rule _ _ => true
  | .declaration _ => true
  | .atRule _ _ _ => true

/-- The orphans at the top level. -/
def orphans (nodes : List Node) : List Node := nodes.filter isOrphan

/-- The call of the transformation for the orphans, if there are any. -/
def orphanCalls (plan : Plan) (nodes : List Node) : List (String × Block) :=
  if orphans nodes = [] then []
  else [(plan.orphansName, ⟨some plan.orphansName, orphans nodes⟩)]

/-! ## What is visited -/

theorem gathers_addBlock : Gathers Block.key (fun block => [block]) Group.mk addBlock := by
  refine ⟨fun _ => rfl, fun block name contents groups => ?_⟩
  rw [addBlock]

/-- The groups are the distinct keys with their blocks. -/
theorem groups_eq (nodes : List Node) :
    groups nodes = (keys nodes).map fun key => ⟨key, blocksOf key nodes⟩ := by
  rw [groups, gathers_addBlock.foldl_eq]
  refine List.map_congr_left fun key _ => ?_
  rw [List.flatMap_singleton', blocksOf, blocks]

theorem filter_rest (nodes : List Node) :
    ((rest nodes).filter fun node => !isSourceMap node) = orphans nodes := by
  rw [rest, List.filter_filter, orphans]
  refine List.filter_congr fun node _ => ?_
  cases node with
  | statement name params => simp [block?, isStatement, isSourceMap, isOrphan, bne]
  | comment text => simp [block?, isStatement, isSourceMap, isOrphan]
  | layer | media | rule | declaration | atRule => rfl

theorem orphans?_rest (name : String) (nodes : List Node) :
    orphans? name (rest nodes) =
      if orphans nodes = [] then none else some ⟨some name, orphans nodes⟩ := by
  rw [orphans?, filter_rest]
  cases orphans nodes with
  | nil => rfl
  | cons node nodes => rfl

theorem visits_eq (plan : Plan) (nodes : List Node) :
    visits plan nodes =
      ((keys nodes).flatMap fun key => (blocksOf key nodes).map fun block => (key, block)) ++
        orphanCalls plan nodes := by
  rw [visits, groups_eq, List.flatMap_map, orphans?_rest, orphanCalls]
  split
  · rfl
  · rfl

/-- Each block is visited once, under its key, and so are the orphans. -/
theorem visits_perm (plan : Plan) (nodes : List Node) :
    (visits plan nodes).Perm
      ((blocks nodes).map (fun block => (block.key, block)) ++ orphanCalls plan nodes) := by
  have hcalls : ((keys nodes).flatMap fun key =>
      (blocksOf key nodes).map fun block => (key, block)) =
        ((keys nodes).flatMap fun key => blocksOf key nodes).map fun block =>
          (block.key, block) := by
    rw [List.map_flatMap]
    refine List.flatMap_congr fun key _ => List.map_congr_left fun block hblock => ?_
    rw [of_decide_eq_true (List.mem_filter.1 hblock).2]
  have hblocks : ((keys nodes).flatMap fun key => blocksOf key nodes).Perm (blocks nodes) :=
    flatMap_filter_perm Block.key (nodup_eraseDups _) fun block hblock =>
      List.mem_eraseDups.2 (List.mem_map_of_mem hblock)
  rw [visits_eq, hcalls]
  exact (hblocks.map _).append_right _

/-- What is visited is a layer block of the stylesheet, under its key, or the orphans. -/
theorem mem_visits_iff {plan : Plan} {nodes : List Node} {name : String} {block : Block} :
    (name, block) ∈ visits plan nodes ↔
      (block ∈ blocks nodes ∧ block.key = name) ∨ (name, block) ∈ orphanCalls plan nodes := by
  rw [(visits_perm plan nodes).mem_iff, List.mem_append]
  refine or_congr_left ?_
  simp only [List.mem_map, Prod.mk.injEq]
  constructor
  · rintro ⟨block, hblock, rfl, rfl⟩
    exact ⟨hblock, rfl⟩
  · rintro ⟨hblock, rfl⟩
    exact ⟨block, hblock, rfl, rfl⟩

theorem mem_orphanCalls_iff {plan : Plan} {nodes : List Node} {name : String} {block : Block} :
    (name, block) ∈ orphanCalls plan nodes ↔
      orphans nodes ≠ [] ∧ name = plan.orphansName ∧
        block = ⟨some plan.orphansName, orphans nodes⟩ := by
  rw [orphanCalls]
  split
  · next hnone => simp [hnone]
  · next hsome => simp [hsome]

end Stylesheet.Layer
