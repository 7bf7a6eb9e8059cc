import Stylesheet.Proofs.FusionFrame
import Stylesheet.Proofs.PassOrder

/-!
# Nodes at any depth

`Node.all` lists the nodes of a tree at any depth, and `Everywhere p` says that all of them have a
property.  What is shown of a node from what is in its block holds everywhere (`inductionOnBlock`), so a
treatment that leaves the property at each node leaves it in a tree (`Everywhere.flatMap`).

A property is *durable* when it does not depend on what is in a block and when media blocks, rules and
declarations all have it.  To be no directive of a certain name is such a property, and to be no comment
of a certain kind.  No pass takes a durable property from a tree (`Durable.retain`, `Durable.purge`,
`Durable.normalize`, `Durable.outlineAt`).

A pass that fuses takes and gives no property that overlooks the declarations in rules: this comes from
the outline of a tree (`everywhere_optimize_iff`).
-/

namespace Stylesheet

namespace Node

/-! ## All nodes of a tree -/

/-- The nodes in the block of a node; a node without a block has none. -/
def block (node : Node) : List Node := node.children?.getD []

mutual

/-- A node and all nodes below it, in document order. -/
def allAt : Node → List Node
  | .layer name children => .layer name children :: all children
  | .media condition children => .media condition children :: all children
  | .rule selector children => .rule selector children :: all children
  | .atRule name params children => .atRule name params children :: all children
  | .declaration d => [.declaration d]
  | .comment text => [.comment text]
  | .statement name params => [.statement name params]

/-- The nodes of a tree at any depth, in document order. -/
def all : List Node → List Node
  | [] => []
  | n :: ns => allAt n ++ all ns

end

/-- All nodes of a tree have a property. -/
def Everywhere (p : Node → Bool) (nodes : List Node) : Prop := ∀ n ∈ all nodes, p n = true

variable {p : Node → Bool} {t : Node → List Node} {nodes : List Node}

theorem allAt_eq (node : Node) : allAt node = node :: all node.block := by
  cases node with
  | layer | media | rule | atRule | declaration | comment | statement => rfl

theorem all_eq_flatMap (nodes : List Node) : all nodes = nodes.flatMap allAt := by
  induction nodes with
  | nil => rfl
  | cons node nodes ih => rw [all, ih, List.flatMap_cons]

/-- Induction over a tree: what is shown of a node may be assumed of the nodes in its block. -/
theorem inductionOnBlock {motive : Node → Prop}
    (step : ∀ node, (∀ n ∈ node.block, motive n) → motive node) (node : Node) : motive node := by
  induction node using Node.inductionOn with
  | layer _ _ ih | media _ _ ih | rule _ _ ih | atRule _ _ _ ih => exact step _ ih
  | declaration | comment | statement => exact step _ fun n hn => absurd hn List.not_mem_nil

theorem everywhere_nil : Everywhere p [] := fun _ hn => absurd hn List.not_mem_nil

theorem everywhere_singleton {node : Node} :
    Everywhere p [node] ↔ p node = true ∧ Everywhere p node.block := by
  rw [Everywhere, all_eq_flatMap, List.flatMap_singleton, allAt_eq, List.forall_mem_cons, Everywhere]

/-- A property holds everywhere in a list when it holds everywhere in each node of it. -/
theorem everywhere_iff : Everywhere p nodes ↔ ∀ n ∈ nodes, Everywhere p [n] := by
  simp only [Everywhere, all_eq_flatMap, List.flatMap_singleton, List.mem_flatMap]
  exact ⟨fun h n hn m hm => h m ⟨n, hn, hm⟩, fun h m ⟨n, hn, hm⟩ => h n hn m hm⟩

theorem everywhere_append {a b : List Node} :
    Everywhere p (a ++ b) ↔ Everywhere p a ∧ Everywhere p b := by
  rw [everywhere_iff, List.forall_mem_append, ← everywhere_iff, ← everywhere_iff]

theorem everywhere_cons {node : Node} :
    Everywhere p (node :: nodes) ↔ Everywhere p [node] ∧ Everywhere p nodes :=
  everywhere_append (a := [node])

theorem Everywhere.of_subset {some : List Node} (h : Everywhere p nodes)
    (hsome : ∀ n ∈ some, n ∈ nodes) : Everywhere p some :=
  everywhere_iff.2 fun n hn => everywhere_iff.1 h n (hsome n hn)

theorem everywhere_flatMap : Everywhere p (nodes.flatMap t) ↔ ∀ n ∈ nodes, Everywhere p (t n) := by
  rw [everywhere_iff, List.forall_mem_flatMap]
  exact forall₂_congr fun n _ => everywhere_iff.symm

/-- A treatment that leaves a property at each node leaves it in a list. -/
theorem Everywhere.flatMap (h : Everywhere p nodes)
    (ht : ∀ n ∈ nodes, Everywhere p [n] → Everywhere p (t n)) : Everywhere p (nodes.flatMap t) :=
  everywhere_flatMap.2 fun n hn => ht n hn (everywhere_iff.1 h n hn)

/-! ## Removing nodes -/

variable {keep : Node → Bool}

theorem block_retainIn (node : Node) : (retainIn keep node).block = retain keep node.block := by
  cases node with
  | layer | media | rule | atRule | declaration | comment | statement => rfl

theorem retainIn_eq (node : Node) :
    retainIn keep node = node.withChildren (retain keep node.block) := by
  cases node with
  | layer | media | rule | atRule | declaration | comment | statement => rfl

theorem retain_eq_nil_iff : retain keep nodes = [] ↔ nodes.any keep = false := by
  rw [retain_eq_flatMap, List.flatMap_eq_nil_iff, List.any_eq_false]
  refine forall₂_congr fun n _ => ?_
  rw [retainAt]
  split
  · next hkept => simp [hkept]
  · next hrefused => simp [hrefused]

/-- What is left has a property everywhere if it has it where the node is kept, as far as refused nodes
have no block. -/
theorem everywhere_retain_iff (hleaf : ∀ node, keep node = false → node.block = []) :
    Everywhere p (retain keep nodes) ↔ Everywhere (fun n => !keep n || p (retainIn keep n)) nodes := by
  have hnode : ∀ node, Everywhere p (retainAt keep node) ↔
      Everywhere (fun n => !keep n || p (retainIn keep n)) [node] := by
    intro node
    induction node using inductionOnBlock with
    | step node ih =>
        have hblock : Everywhere p (retain keep node.block) ↔
            Everywhere (fun n => !keep n || p (retainIn keep n)) node.block := by
          rw [retain_eq_flatMap, everywhere_flatMap, everywhere_iff]
          exact forall₂_congr ih
        rw [everywhere_singleton, ← hblock, retainAt]
        cases hkeep : keep node with
        | true => simp [everywhere_singleton, block_retainIn]
        | false => simp [hleaf node hkeep, everywhere_nil, retain]
  rw [retain_eq_flatMap, everywhere_flatMap, everywhere_iff]
  exact forall₂_congr fun n _ => hnode n

/-- What is left is kept everywhere, if it does not depend on what is in a block. -/
theorem everywhere_retain (hkeep : ∀ node children, keep (node.withChildren children) = keep node)
    (nodes : List Node) : Everywhere keep (retain keep nodes) := by
  have hnode : ∀ node, Everywhere keep (retainAt keep node) := by
    intro node
    induction node using inductionOnBlock with
    | step node ih =>
        rw [retainAt]
        split
        · next hkept =>
            rw [everywhere_singleton, block_retainIn, retainIn_eq, hkeep, retain_eq_flatMap]
            exact ⟨hkept, everywhere_flatMap.2 ih⟩
        · exact everywhere_nil
  rw [retain_eq_flatMap]
  exact everywhere_flatMap.2 fun n _ => hnode n

/-! ## Merging media blocks -/

theorem block_pruneIn (node : Node) : (Media.pruneIn node).block = Media.prune node.block := by
  cases node with
  | layer | media | rule | atRule | declaration | comment | statement => rfl

theorem pruneIn_eq (node : Node) :
    Media.pruneIn node = node.withChildren (Media.prune node.block) := by
  cases node with
  | layer | media | rule | atRule | declaration | comment | statement => rfl

/-- What holds everywhere holds everywhere in what stands under a condition. -/
theorem Everywhere.contents (h : Everywhere p nodes) (condition : String) :
    Everywhere p (Media.contents condition nodes) := by
  refine h.flatMap fun node _ hnode => ?_
  cases node with
  | media other children =>
      rw [Media.contentsAt]
      split
      · exact (everywhere_singleton.1 hnode).2
      · exact everywhere_nil
  | layer | rule | atRule | declaration | comment | statement => exact everywhere_nil

/-! ## Durable properties -/

/-- A property of nodes that does not depend on what is in a block and that all media blocks, rules and
declarations have. -/
structure Durable (p : Node → Bool) : Prop where
  /-- The block does not count. -/
  withChildren : ∀ node children, p (node.withChildren children) = p node
  /-- Media blocks have it. -/
  media : ∀ condition children, p (.media condition children) = true
  /-- Rules have it. -/
  rule : ∀ selector children, p (.rule selector children) = true
  /-- Declarations have it. -/
  declaration : ∀ d, p (.declaration d) = true

namespace Durable

/-- A block with other nodes in it. -/
theorem everywhere_withChildren (h : Durable p) {node : Node} {children : List Node}
    (hnode : Everywhere p [node]) (hchildren : Everywhere p children) :
    Everywhere p [node.withChildren children] := by
  rw [everywhere_singleton] at hnode ⊢
  rw [h.withChildren]
  refine ⟨hnode.1, ?_⟩
  cases node with
  | layer | media | rule | atRule => exact hchildren
  | declaration | comment | statement => exact everywhere_nil

theorem retain (h : Durable p) (keep : Node → Bool) (hnodes : Everywhere p nodes) :
    Everywhere p (retain keep nodes) := by
  have hnode : ∀ node, Everywhere p [node] → Everywhere p (retainAt keep node) := by
    intro node
    induction node using inductionOnBlock with
    | step node ih =>
        intro hnode
        rw [retainAt]
        split
        · rw [retainIn_eq, retain_eq_flatMap]
          exact h.everywhere_withChildren hnode ((everywhere_singleton.1 hnode).2.flatMap ih)
        · exact everywhere_nil
  rw [retain_eq_flatMap]
  exact hnodes.flatMap fun n _ => hnode n

theorem purgeNode (h : Durable p) (allow : AllowList) (node : Node) (hnode : Everywhere p [node]) :
    Everywhere p (Purge.purgeNode allow node).nodes := by
  induction node using Node.inductionOn with
  | rule selector children ih =>
      rw [Purge.nodes_purgeNode_rule]
      split
      · exact everywhere_nil
      · exact everywhere_singleton.2 ⟨h.rule _ _, (everywhere_singleton.1 hnode).2.flatMap ih⟩
  | atRule name params children ih =>
      rw [Purge.nodes_purgeNode_atRule]
      refine h.everywhere_withChildren hnode ?_
      split
      · exact (everywhere_singleton.1 hnode).2
      · exact (everywhere_singleton.1 hnode).2.flatMap ih
  | layer name children ih | media name children ih =>
      rw [Purge.purgeNode, Purge.Purged.wrap, Purge.nodes_purge_eq_flatMap]
      exact h.everywhere_withChildren hnode ((everywhere_singleton.1 hnode).2.flatMap ih)
  | declaration | comment | statement =>
      rw [Purge.purgeNode]
      exact hnode

theorem purge (h : Durable p) (allow : AllowList) (hnodes : Everywhere p nodes) :
    Everywhere p (Purge.purge allow nodes).nodes := by
  rw [Purge.nodes_purge_eq_flatMap]
  exact hnodes.flatMap fun n _ => h.purgeNode allow n

theorem prune (h : Durable p) (hnodes : Everywhere p nodes) : Everywhere p (Media.prune nodes) := by
  have hnode : ∀ node, Everywhere p [node] → Everywhere p (Media.pruneAt node) := by
    intro node
    induction node using inductionOnBlock with
    | step node ih =>
        intro hnode
        rw [Media.pruneAt]
        split
        · exact everywhere_nil
        · rw [pruneIn_eq, Media.prune_eq_flatMap]
          exact h.everywhere_withChildren hnode ((everywhere_singleton.1 hnode).2.flatMap ih)
  rw [Media.prune_eq_flatMap]
  exact hnodes.flatMap fun n _ => hnode n

theorem normalize (h : Durable p) (hnodes : Everywhere p nodes) :
    Everywhere p (Media.normalize nodes) := by
  have hpruned := h.prune hnodes
  rw [Media.normalize_eq, everywhere_append]
  refine ⟨hpruned.of_subset fun n hn => (List.mem_filter.1 hn).1, everywhere_iff.2 fun n hn => ?_⟩
  obtain ⟨condition, -, rfl⟩ := List.mem_map.1 hn
  exact everywhere_singleton.2 ⟨h.media _ _, hpruned.contents condition⟩

end Durable

/-! ## Passes that fuse -/

theorem everywhere_outlineIn {inRule : Bool} (hdeclaration : ∀ d, p (.declaration d) = true)
    (h : ∀ n ∈ nodes, Everywhere p [outlineAt n] ↔ Everywhere p [n]) :
    Everywhere p (outlineIn inRule nodes) ↔ Everywhere p nodes := by
  induction nodes with
  | nil => exact Iff.rfl
  | cons node nodes ih =>
      obtain ⟨hnode, hnodes⟩ := List.forall_mem_cons.1 h
      rw [outlineIn]
      split
      · next hskip =>
          obtain ⟨d, hd⟩ := Option.isSome_iff_exists.1 ((Bool.and_eq_true _ _).mp hskip).2
          rw [declaration?_eq_some_iff] at hd
          rw [ih hnodes, everywhere_cons, hd, everywhere_singleton]
          exact (and_iff_right ⟨hdeclaration d, everywhere_nil⟩).symm
      · rw [everywhere_cons, hnode, ih hnodes, ← everywhere_cons]

theorem everywhere_outline_iff (hdeclaration : ∀ d, p (.declaration d) = true)
    (hhead : ∀ node, p (outlineAt node) = p node) :
    Everywhere p (outline nodes) ↔ Everywhere p nodes := by
  have hnode : ∀ node, Everywhere p [outlineAt node] ↔ Everywhere p [node] := by
    intro node
    induction node using Node.inductionOn with
    | layer _ _ ih | media _ _ ih | rule _ _ ih | atRule _ _ _ ih =>
        rw [everywhere_singleton, everywhere_singleton, hhead]
        exact and_congr_right fun _ => everywhere_outlineIn hdeclaration ih
    | declaration | comment | statement => exact Iff.rfl
  exact everywhere_outlineIn hdeclaration fun n _ => hnode n

/-- A pass that fuses neither takes nor gives a property that overlooks the declarations in rules. -/
theorem everywhere_optimize_iff (hdeclaration : ∀ d, p (.declaration d) = true)
    (hhead : ∀ node, p (outlineAt node) = p node) (pass : Pass) :
    Everywhere p (pass.optimize nodes) ↔ Everywhere p nodes := by
  rw [← everywhere_outline_iff hdeclaration hhead, pass.outline_optimize,
    everywhere_outline_iff hdeclaration hhead]

theorem Durable.outlineAt (h : Durable p) (node : Node) : p (outlineAt node) = p node := by
  cases node with
  | layer name children => exact h.withChildren (.layer name children) _
  | media condition children => exact h.withChildren (.media condition children) _
  | rule selector children => exact h.withChildren (.rule selector children) _
  | atRule name params children => exact h.withChildren (.atRule name params children) _
  | declaration | comment | statement => rfl

end Node

end Stylesheet
