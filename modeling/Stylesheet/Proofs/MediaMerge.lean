import Mathlib.Data.List.Basic
import Stylesheet.Media.Merge
import Stylesheet.Proofs.Gathering

/-!
# What merging media blocks does

`Media.normalize` collects the media blocks of a list in one walk, adds to groups as it goes, and sorts
the groups.  Here the same is said without the walk.

* `Pruned` relates a tree to the tree without its empty media blocks, where a block whose contents all go
  is empty as well.
* `conditions` are the conditions of the blocks that stand directly in a list, and `contents` what all
  blocks with one condition hold.  The groups are the distinct conditions with their contents
  (`groups_of`).
* The order of the blocks is the stable sort of the distinct conditions.  That the sort is stable is said
  by `pairwise_mergeSort_stable`: of two elements neither of which comes later than the other, the one
  that stood first still does.

The main statement is `normalize_spec`.
-/

namespace Stylesheet.Media

/-! ## Blocks without nodes -/

/-- The second list is the first without its empty media blocks.  A block that has nothing left in it is
empty too. -/
inductive Pruned : List Node → List Node → Prop where
  /-- Nothing is left of nothing. -/
  | nil : Pruned [] []
  /-- A media block goes when nothing is left in it. -/
  | empty {condition : String} {children ns ns' : List Node} :
      Pruned children [] → Pruned ns ns' → Pruned (.media condition children :: ns) ns'
  /-- Any other media block stays. -/
  | media {condition : String} {children children' ns ns' : List Node} :
      Pruned children children' → children' ≠ [] → Pruned ns ns' →
      Pruned (.media condition children :: ns) (.media condition children' :: ns')
  /-- A layer stays. -/
  | layer {name : Option String} {children children' ns ns' : List Node} :
      Pruned children children' → Pruned ns ns' →
      Pruned (.layer name children :: ns) (.layer name children' :: ns')
  /-- A rule stays. -/
  | rule {selector : String} {children children' ns ns' : List Node} :
      Pruned children children' → Pruned ns ns' →
      Pruned (.rule selector children :: ns) (.rule selector children' :: ns')
  /-- Any other at-rule stays. -/
  | atRule {name params : String} {children children' ns ns' : List Node} :
      Pruned children children' → Pruned ns ns' →
      Pruned (.atRule name params children :: ns) (.atRule name params children' :: ns')
  /-- Declarations stay. -/
  | declaration {d : Declaration} {ns ns' : List Node} :
      Pruned ns ns' → Pruned (.declaration d :: ns) (.declaration d :: ns')
  /-- Comments stay. -/
  | comment {text : String} {ns ns' : List Node} :
      Pruned ns ns' → Pruned (.comment text :: ns) (.comment text :: ns')
  /-- At-rules without a block stay. -/
  | statement {name params : String} {ns ns' : List Node} :
      Pruned ns ns' → Pruned (.statement name params :: ns) (.statement name params :: ns')

/-- What is left of a node: nothing of an empty media block. -/
def pruneAt (node : Node) : List Node :=
  if isEmptyMedia (pruneIn node) then [] else [pruneIn node]

theorem prune_cons (node : Node) (nodes : List Node) :
    prune (node :: nodes) = pruneAt node ++ prune nodes := by
  rw [prune, pruneAt]
  split
  · rfl
  · rfl

theorem prune_eq_flatMap (nodes : List Node) : prune nodes = nodes.flatMap pruneAt := by
  induction nodes with
  | nil => rfl
  | cons node nodes ih => rw [prune_cons, ih, List.flatMap_cons]

theorem pruneAt_media (condition : String) (children : List Node) :
    pruneAt (.media condition children) =
      if prune children = [] then [] else [.media condition (prune children)] := by
  rw [pruneAt, pruneIn]
  cases prune children with
  | nil => rfl
  | cons n ns => rfl

theorem Pruned.eq_prune {nodes after : List Node} (h : Pruned nodes after) : after = prune nodes := by
  induction h with
  | nil => rfl
  | empty _ _ ihc ih =>
      rw [prune_cons, pruneAt_media, if_pos ihc.symm]
      exact ih
  | media _ hne _ ihc ih =>
      rw [prune_cons, pruneAt_media, if_neg (ihc ▸ hne), ← ihc, ← ih]
      rfl
  | layer _ _ ihc ih | rule _ _ ihc ih | atRule _ _ ihc ih =>
      rw [ihc, ih]
      rfl
  | declaration _ ih | comment _ ih | statement _ ih =>
      rw [ih]
      rfl

mutual

theorem pruned_pruneAt : (node : Node) → {ns ns' : List Node} → Pruned ns ns' →
    Pruned (node :: ns) (pruneAt node ++ ns')
  | .media condition children, ns, ns', h => by
      have hchildren := pruned_prune children
      rw [pruneAt_media]
      split
      · next hempty =>
          rw [hempty] at hchildren
          exact .empty hchildren h
      · next hne => exact .media hchildren hne h
  | .layer _ children, _, _, h => .layer (pruned_prune children) h
  | .rule _ children, _, _, h => .rule (pruned_prune children) h
  | .atRule _ _ children, _, _, h => .atRule (pruned_prune children) h
  | .declaration _, _, _, h => .declaration h
  | .comment _, _, _, h => .comment h
  | .statement _ _, _, _, h => .statement h

theorem pruned_prune : (nodes : List Node) → Pruned nodes (prune nodes)
  | [] => .nil
  | node :: nodes => by
      rw [prune_cons]
      exact pruned_pruneAt node (pruned_prune nodes)

end

/-- There is one way to leave out the empty media blocks. -/
theorem pruned_iff {nodes after : List Node} : Pruned nodes after ↔ after = prune nodes := by
  constructor
  · exact Pruned.eq_prune
  · rintro rfl
    exact pruned_prune nodes

/-! ## Groups -/

/-- The condition of a media block. -/
def condition? : Node → Option String
  | .media condition _ => some condition
  | _ => none

/-- The conditions of the media blocks that stand directly in a list, in their order. -/
def conditions (nodes : List Node) : List String := nodes.filterMap condition?

/-- The nodes in a media block with a condition. -/
def contentsAt (condition : String) : Node → List Node
  | .media other children => if other = condition then children else []
  | _ => []

/-- The nodes in all media blocks with a condition that stand directly in a list, one block after the
other. -/
def contents (condition : String) (nodes : List Node) : List Node :=
  nodes.flatMap (contentsAt condition)

/-- The nodes that are no media blocks. -/
def others (nodes : List Node) : List Node := nodes.filter fun node => (condition? node).isNone

theorem contents_eq_nil {condition : String} {nodes : List Node}
    (h : condition ∉ conditions nodes) : contents condition nodes = [] := by
  rw [contents, List.flatMap_eq_nil_iff]
  intro node hnode
  cases node with
  | media other children =>
      rw [contentsAt, if_neg]
      rintro rfl
      exact h (List.mem_filterMap.2 ⟨_, hnode, rfl⟩)
  | declaration | layer | rule | comment | statement | atRule => rfl

theorem gathers_addBlock : Gathers Prod.fst Prod.snd Group.mk fun block : String × List Node =>
    addBlock block.1 block.2 := by
  refine ⟨fun _ => rfl, fun block name contents groups => ?_⟩
  rw [addBlock]
  by_cases heq : name = block.1
  · rw [if_pos heq, if_pos heq, heq]
  · rw [if_neg heq, if_neg heq]

theorem of_append_singleton (nodes : List Node) (node : Node) :
    Parts.of (nodes ++ [node]) = (Parts.of nodes).add node := by
  rw [Parts.of, List.foldl_append]
  rfl

theorem conditions_append_singleton (nodes : List Node) (node : Node) :
    conditions (nodes ++ [node]) = conditions nodes ++ (condition? node).toList := by
  rw [conditions, List.filterMap_append, conditions]
  cases node with
  | media | declaration | layer | rule | comment | statement | atRule => rfl

theorem contents_append_singleton (condition : String) (nodes : List Node) (node : Node) :
    contents condition (nodes ++ [node]) =
      contents condition nodes ++ contentsAt condition node := by
  rw [contents, List.flatMap_append, List.flatMap_singleton, contents]

theorem others_of (nodes : List Node) : (Parts.of nodes).others = others nodes := by
  induction nodes using List.reverseRecOn with
  | nil => rfl
  | append_singleton nodes node ih =>
      rw [of_append_singleton, others, List.filter_append, ← others, ← ih]
      cases node with
      | media condition children => exact (List.append_nil _).symm
      | declaration | layer | rule | comment | statement | atRule => rfl

/-- The groups are the distinct conditions with what their blocks hold. -/
theorem groups_of (nodes : List Node) :
    (Parts.of nodes).groups =
      (conditions nodes).eraseDups.map fun condition => ⟨condition, contents condition nodes⟩ := by
  induction nodes using List.reverseRecOn with
  | nil => rfl
  | append_singleton nodes node ih =>
      rw [of_append_singleton, conditions_append_singleton]
      simp only [contents_append_singleton]
      cases node with
      | media condition children =>
          show addBlock condition children (Parts.of nodes).groups =
            (conditions nodes ++ [condition]).eraseDups.map _
          rw [ih, gathers_addBlock.add_map (condition, children) (nodup_eraseDups _),
            eraseDups_append_singleton, List.map_append]
          refine congrArg₂ (· ++ ·) rfl ?_
          by_cases hmem : condition ∈ conditions nodes
          · rw [if_pos (List.mem_eraseDups.2 hmem), if_pos hmem]
            rfl
          · rw [if_neg (mt List.mem_eraseDups.1 hmem), if_neg hmem, List.map_cons, List.map_nil,
              contents_eq_nil hmem, contentsAt, if_pos rfl]
            rfl
      | declaration | layer | rule | comment | statement | atRule =>
          simp only [condition?, Option.toList_none, contentsAt, List.append_nil]
          exact ih

/-! ## Sorting -/

/-- A stable sort sorts, and of two elements that may stand in either order the one that stood first
still does. -/
theorem pairwise_mergeSort_stable {α : Type} {le : α → α → Bool} {before : α → α → Prop}
    (htrans : ∀ a b c, le a b = true → le b c = true → le a c = true)
    (htotal : ∀ a b, (le a b || le b a) = true) {xs : List α} (h : xs.Pairwise before) :
    (xs.mergeSort le).Pairwise fun a b => le a b = true ∧ (le b a = true → before a b) := by
  induction xs with
  | nil => simp
  | cons x xs ih =>
      obtain ⟨hx, hxs⟩ := List.pairwise_cons.1 h
      obtain ⟨front, back, hsorted, hrest, hfront⟩ := List.mergeSort_cons htrans htotal x xs
      have hle := List.pairwise_mergeSort htrans htotal (x :: xs)
      rw [hsorted, List.pairwise_append, List.pairwise_cons] at hle
      have hothers := ih hxs
      rw [hrest, List.pairwise_append] at hothers
      have hmem : ∀ y ∈ back, y ∈ xs := by
        intro y hy
        rw [← (List.mergeSort_perm xs le).mem_iff, hrest]
        exact List.mem_append_right front hy
      rw [hsorted, List.pairwise_append, List.pairwise_cons]
      refine ⟨hothers.1, ⟨?_, hothers.2.1⟩, ?_⟩
      · intro y hy
        exact ⟨hle.2.1.1 y hy, fun _ => hx y (hmem y hy)⟩
      · intro y hy z hz
        rcases List.mem_cons.1 hz with rfl | hz
        · -- The elements in front of `x` come before it in the order, not only in the list.
          refine ⟨hle.2.2 y hy z List.mem_cons_self, fun hzy => ?_⟩
          have hnot := hfront y hy
          rw [hzy] at hnot
          cases hnot
        · exact hothers.2.2 y hy z hz

instance : Std.TransCmp Order.compare :=
  inferInstanceAs (Std.TransCmp (compareLex
    (compareLex (compareOn fun o : Order => o.bucket.rank.1) (compareOn fun o => o.bucket.rank.2))
    (compareOn fun o => orderKey o.magnitude)))

theorem Order.le_trans (a b c : Order) (hab : a.le b = true) (hbc : b.le c = true) :
    a.le c = true :=
  Std.TransCmp.isLE_trans hab hbc

theorem Order.le_total (a b : Order) : (a.le b || b.le a) = true := by
  have hswap : b.compare a = (a.compare b).swap := Std.OrientedCmp.eq_swap
  rw [le, le, hswap]
  cases a.compare b with
  | lt | eq | gt => rfl

/-- The conditions of the merged blocks, in their order. -/
def sortedConditions (nodes : List Node) : List String :=
  (conditions nodes).eraseDups.mergeSort fun a b => (Order.of a).le (Order.of b)

/-- The nodes after merging: first those that are no media blocks, and then one block for each
condition. -/
theorem normalize_eq (nodes : List Node) :
    normalize nodes =
      others (prune nodes) ++
        (sortedConditions (prune nodes)).map fun condition =>
          .media condition (contents condition (prune nodes)) := by
  have hsort := List.map_mergeSort (l := (conditions (prune nodes)).eraseDups)
    (r := fun a b => (Order.of a).le (Order.of b))
    (s := fun a b : Group => (Order.of a.condition).le (Order.of b.condition))
    (f := fun condition => ⟨condition, contents condition (prune nodes)⟩) (fun _ _ _ _ => rfl)
  rw [normalize, others_of, groups_of, sortGroups, ← hsort, List.map_map]
  rfl

/-- Blocks that compare equal stay in the order in which their conditions occur first. -/
theorem pairwise_sortedConditions (nodes : List Node) :
    (sortedConditions nodes).Pairwise fun a b =>
      (Order.of a).compare (Order.of b) = .lt ∨
        (Order.of a).compare (Order.of b) = .eq ∧
          (conditions nodes).idxOf a < (conditions nodes).idxOf b := by
  have hstable := pairwise_mergeSort_stable
    (fun a b c : String => Order.le_trans (Order.of a) (Order.of b) (Order.of c))
    (fun a b => Order.le_total (Order.of a) (Order.of b)) (pairwise_eraseDups (conditions nodes))
  refine hstable.imp fun {a b} hab => ?_
  obtain ⟨hle, hfirst⟩ := hab
  have hswap : (Order.of b).compare (Order.of a) = ((Order.of a).compare (Order.of b)).swap :=
    Std.OrientedCmp.eq_swap
  rw [Order.le] at hle hfirst
  cases hcompare : (Order.of a).compare (Order.of b) with
  | lt => exact .inl rfl
  | eq =>
      rw [hswap, hcompare] at hfirst
      exact .inr ⟨rfl, hfirst rfl⟩
  | gt =>
      rw [hcompare] at hle
      cases hle

/-- Merging leaves out the empty media blocks.  After the nodes that are no media blocks comes one block
for each condition of a direct block, with the contents of all direct blocks with this condition, in the
order of `Order.compare`, and with blocks that compare equal in the order in which their conditions occur
first. -/
theorem normalize_spec (nodes : List Node) :
    ∃ (pruned : List Node) (order : List String), (∀ after, Pruned nodes after ↔ after = pruned) ∧
      normalize nodes =
        others pruned ++ order.map (fun condition => .media condition (contents condition pruned)) ∧
      order.Nodup ∧ (∀ condition, condition ∈ order ↔ condition ∈ conditions pruned) ∧
      order.Pairwise fun a b =>
        (Order.of a).compare (Order.of b) = .lt ∨
          (Order.of a).compare (Order.of b) = .eq ∧
            (conditions pruned).idxOf a < (conditions pruned).idxOf b := by
  refine ⟨prune nodes, sortedConditions (prune nodes), fun after => pruned_iff, normalize_eq nodes,
    ?_, ?_, pairwise_sortedConditions (prune nodes)⟩
  · exact (List.mergeSort_perm _ _).nodup_iff.2 (nodup_eraseDups _)
  · intro condition
    rw [sortedConditions, List.mem_mergeSort, List.mem_eraseDups]

end Stylesheet.Media
