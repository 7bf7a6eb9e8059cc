import Stylesheet.Proofs.Everywhere

/-!
# Counting what merging media blocks leaves

Merging media blocks loses no rule, declaration, comment, directive or layer, at any depth, and each media
block that is missing afterwards has been reported, as emptied or as merged (`report_accounts`).

* `Node.tally` counts the nodes of a kind at any depth.
* Leaving out empty blocks is counted along the tree: what is missing at a node is what is missing in its
  block, and the node itself if it goes (`tally_prune`).
* Taking a list apart is counted along the walk.  The next node comes to what has been taken in so far,
  or its block comes to a group that is there and one more block has been merged (`tally_add`).
-/

namespace Stylesheet

namespace Node

/-- The kinds of nodes.  At-rules with a block and without one are of the same kind. -/
inductive Kind where
  /-- A cascade layer. -/
  | layer
  /-- A media block. -/
  | media
  /-- A rule. -/
  | rule
  /-- A declaration. -/
  | declaration
  /-- A comment. -/
  | comment
  /-- Any other at-rule. -/
  | directive
deriving DecidableEq

/-- The kind of a node. -/
def kind : Node → Kind
  | .layer _ _ => .layer
  | .media _ _ => .media
  | .rule _ _ => .rule
  | .declaration _ => .declaration
  | .comment _ => .comment
  | .statement _ _ => .directive
  | .atRule _ _ _ => .directive

/-- How many nodes of a kind a tree has at any depth. -/
def tally (kind : Kind) (nodes : List Node) : Nat := (all nodes).countP fun node => node.kind == kind

variable {k : Kind}

@[simp] theorem tally_nil : tally k [] = 0 := rfl

theorem tally_append (a b : List Node) : tally k (a ++ b) = tally k a + tally k b := by
  rw [tally, all_eq_flatMap, List.flatMap_append, List.countP_append, ← all_eq_flatMap,
    ← all_eq_flatMap, tally, tally]

theorem tally_cons (node : Node) (nodes : List Node) :
    tally k (node :: nodes) = tally k [node] + tally k nodes := tally_append [node] nodes

/-- A node counts, and so do the nodes in its block. -/
theorem tally_singleton (node : Node) :
    tally k [node] = (if node.kind = k then 1 else 0) + tally k node.block := by
  rw [tally, all_eq_flatMap, List.flatMap_singleton, allAt_eq, List.countP_cons, Nat.add_comm, tally]
  simp only [beq_iff_eq]

theorem tally_perm {a b : List Node} (h : a.Perm b) : tally k a = tally k b := by
  rw [tally, tally, all_eq_flatMap, all_eq_flatMap]
  exact (h.flatMap_right allAt).countP_eq _

end Node

namespace Media

open Node (tally)

variable {k : Node.Kind}

/-! ## Empty blocks -/

theorem kind_pruneIn (node : Node) : (pruneIn node).kind = node.kind := by
  cases node with
  | layer | media | rule | atRule | declaration | comment | statement => rfl

theorem prunedCountIn_eq (node : Node) : prunedCountIn node = prunedCount node.block := by
  cases node with
  | layer | media | rule | atRule | declaration | comment | statement => rfl

/-- What becomes an empty media block was one of which nothing is left. -/
theorem isEmptyMedia_pruneIn {node : Node} (h : isEmptyMedia (pruneIn node) = true) :
    node.kind = .media ∧ prune node.block = [] := by
  cases node with
  | media condition children =>
      refine ⟨rfl, ?_⟩
      show prune children = []
      cases hchildren : prune children with
      | nil => rfl
      | cons n ns =>
          rw [pruneIn, hchildren] at h
          cases h
  | layer | rule | atRule | declaration | comment | statement => cases h

/-- Media blocks are left out, each is counted, and all other nodes stay. -/
theorem tally_prune (nodes : List Node) :
    tally k nodes = tally k (prune nodes) + if k = .media then prunedCount nodes else 0 := by
  -- The nodes of a list are counted one after the other.
  have hlist : ∀ nodes : List Node,
      (∀ n ∈ nodes, tally k [n] = tally k (pruneAt n) + if k = .media then
        prunedCountIn n + (if isEmptyMedia (pruneIn n) then 1 else 0) else 0) →
      tally k nodes = tally k (prune nodes) + if k = .media then prunedCount nodes else 0 := by
    intro nodes hnodes
    induction nodes with
    | nil => simp [prune, prunedCount]
    | cons node nodes ih =>
        obtain ⟨hnode, hnodes⟩ := List.forall_mem_cons.1 hnodes
        rw [Node.tally_cons, hnode, ih hnodes, prune_cons, Node.tally_append, prunedCount]
        split
        · omega
        · omega
  have hnode : ∀ node, tally k [node] = tally k (pruneAt node) + if k = .media then
      prunedCountIn node + (if isEmptyMedia (pruneIn node) then 1 else 0) else 0 := by
    intro node
    induction node using Node.inductionOnBlock with
    | step node ih =>
        rw [Node.tally_singleton, hlist node.block ih, prunedCountIn_eq, pruneAt]
        cases hempty : isEmptyMedia (pruneIn node) with
        | true =>
            obtain ⟨hkind, hnil⟩ := isEmptyMedia_pruneIn hempty
            rw [hkind, hnil, if_pos rfl, if_pos rfl]
            simp only [eq_comm (a := Node.Kind.media), Node.tally_nil]
            split
            · omega
            · rfl
        | false =>
            rw [if_neg Bool.false_ne_true, if_neg Bool.false_ne_true, Node.tally_singleton,
              kind_pruneIn, Node.block_pruneIn, Nat.add_zero, Nat.add_assoc]
  exact hlist nodes fun n _ => hnode n

/-! ## Merging -/

/-- Is a block merged when it is added to some groups? -/
def merges (condition : String) (groups : List Group) : Bool :=
  groups.any (·.condition == condition)

/-- A block that is added is a node more, or what is in it comes to another block. -/
theorem tally_addBlock (condition : String) (children : List Node) (groups : List Group) :
    tally k ((addBlock condition children groups).map Group.node) +
        (if k = .media then (if merges condition groups then 1 else 0) else 0) =
      tally k (groups.map Group.node) + tally k [.media condition children] := by
  have hblock : ∀ (condition : String) (children : List Node),
      tally k [.media condition children] = (if k = .media then 1 else 0) + tally k children := by
    intro condition children
    rw [Node.tally_singleton]
    simp only [eq_comm (b := k)]
    rfl
  induction groups with
  | nil => simp [addBlock, merges, Group.node]
  | cons group groups ih =>
      rw [addBlock, merges, List.any_cons, ← merges]
      by_cases heq : group.condition = condition
      · rw [if_pos heq, List.map_cons, List.map_cons, Node.tally_cons, Node.tally_cons (Group.node group),
          Group.node, Group.node, hblock, hblock, hblock, Node.tally_append, heq, beq_self_eq_true,
          Bool.true_or, if_pos rfl]
        omega
      · rw [if_neg heq, List.map_cons, List.map_cons, Node.tally_cons _ (List.map _ groups),
          Node.tally_cons _ (List.map _ (addBlock _ _ _)), beq_false_of_ne heq, Bool.false_or]
        omega

/-- The nodes of a kind in what was taken in so far, with the media blocks that were merged. -/
def Parts.tally (k : Node.Kind) (parts : Parts) : Nat :=
  Node.tally k parts.others + Node.tally k (parts.groups.map Group.node) +
    if k = .media then parts.merged else 0

theorem Parts.merged_add_media (parts : Parts) (condition : String) (children : List Node) :
    (parts.add (.media condition children)).merged =
      parts.merged + if merges condition parts.groups then 1 else 0 := by
  rw [add, merges]
  split
  · rfl
  · rfl

/-- The next node adds to what was taken in what there is of it. -/
theorem Parts.tally_add (parts : Parts) (node : Node) :
    (parts.add node).tally k = parts.tally k + Node.tally k [node] := by
  cases node with
  | media condition children =>
      have hblock := tally_addBlock (k := k) condition children parts.groups
      have hgroups : (parts.add (.media condition children)).groups =
          addBlock condition children parts.groups := rfl
      have hothers : (parts.add (.media condition children)).others = parts.others := rfl
      rw [Parts.tally, Parts.merged_add_media, hgroups, hothers, Parts.tally]
      by_cases hkind : k = .media
      · rw [if_pos hkind] at hblock ⊢
        rw [if_pos hkind]
        omega
      · rw [if_neg hkind] at hblock ⊢
        rw [if_neg hkind]
        omega
  | declaration | layer | rule | comment | statement | atRule =>
      simp only [Parts.tally, Parts.add, Node.tally_append]
      omega

/-- Nothing is lost when a list is taken apart. -/
theorem tally_of (nodes : List Node) : (Parts.of nodes).tally k = tally k nodes := by
  induction nodes using List.reverseRecOn with
  | nil => simp [Parts.of, Parts.tally]
  | append_singleton nodes node ih => rw [of_append_singleton, Parts.tally_add, ih, Node.tally_append]

/-- Each media block starts a group or is merged. -/
theorem merged_add_length (nodes : List Node) :
    (Parts.of nodes).merged + (conditions nodes).eraseDups.length = (conditions nodes).length := by
  induction nodes using List.reverseRecOn with
  | nil => rfl
  | append_singleton nodes node ih =>
      rw [of_append_singleton, conditions_append_singleton]
      cases node with
      | media condition children =>
          have hmerges : merges condition (Parts.of nodes).groups = true ↔
              condition ∈ conditions nodes := by
            rw [merges, groups_of]
            simp
          rw [Parts.merged_add_media, condition?, Option.toList_some, eraseDups_append_singleton,
            List.length_append, List.length_append]
          by_cases hmem : condition ∈ conditions nodes
          · rw [if_pos (hmerges.2 hmem), if_pos hmem, List.length_nil, List.length_singleton]
            omega
          · rw [if_neg (mt hmerges.1 hmem), if_neg hmem]
            omega
      | declaration | layer | rule | comment | statement | atRule =>
          simpa [Parts.add, condition?] using ih

/-- Merging leaves of each kind what was there, but for the media blocks that it reports. -/
theorem tally_normalize (nodes : List Node) :
    tally k nodes =
      tally k (normalize nodes) +
        if k = .media then (report nodes).emptied + (report nodes).merged else 0 := by
  have hsorted : ((sortGroups (Parts.of (prune nodes)).groups).map Group.node).Perm
      ((Parts.of (prune nodes)).groups.map Group.node) :=
    (List.mergeSort_perm _ _).map Group.node
  rw [tally_prune, ← tally_of (prune nodes), normalize, Node.tally_append, Node.tally_perm hsorted,
    Parts.tally, report]
  split
  · dsimp only
    omega
  · rfl

/-- The media blocks of a tree, at any depth, are those of the merged tree, those that were empty, and
those that were merged, which are as many as there are more direct blocks than conditions once the empty
ones are left out.  Of each other kind there are as many nodes as before. -/
theorem report_accounts (nodes : List Node) :
    tally .media nodes =
        tally .media (normalize nodes) + ((report nodes).emptied + (report nodes).merged) ∧
      (∃ pruned, (∀ after, Pruned nodes after ↔ after = pruned) ∧
        tally .media nodes = tally .media pruned + (report nodes).emptied ∧
        (report nodes).merged + (conditions pruned).eraseDups.length = (conditions pruned).length) ∧
      ∀ kind, kind ≠ .media → tally kind (normalize nodes) = tally kind nodes := by
  refine ⟨?_, ⟨prune nodes, fun after => pruned_iff, ?_, merged_add_length (prune nodes)⟩, ?_⟩
  · exact tally_normalize nodes
  · exact tally_prune nodes
  · intro kind hkind
    rw [tally_normalize nodes, if_neg hkind, Nat.add_zero]

end Media

end Stylesheet
