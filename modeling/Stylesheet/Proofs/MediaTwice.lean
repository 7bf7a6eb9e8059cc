import Stylesheet.Proofs.EmptyMedia
import Stylesheet.Proofs.MediaCount

/-!
# Merging media blocks twice

A list of nodes is *merged* when no media block in it is empty, at any depth, and the media blocks that
stand directly in it are at its end, in their order, with a condition each (`Merged`).  Merging makes lists
merged (`merged_normalize`), and leaves those that are as they are, with nothing to report
(`Merged.normalize_eq`, `Merged.report_eq`).  So a second run of the pass finds nothing
(`normalize_normalize`).
-/

namespace Stylesheet.Media

open Node (Everywhere)

/-- A list of nodes with its media blocks merged. -/
structure Merged (nodes : List Node) : Prop where
  /-- No media block is empty, at any depth. -/
  filled : Everywhere filled nodes
  /-- The media blocks of the list stand behind the other nodes, one for each condition. -/
  split : nodes = others nodes ++
    (conditions nodes).map fun condition => .media condition (contents condition nodes)
  /-- No condition is that of two blocks. -/
  nodup : (conditions nodes).Nodup
  /-- The conditions are in order. -/
  sorted : (conditions nodes).Pairwise fun a b => (Order.of a).le (Order.of b) = true

/-! ## What is merged stays -/

/-- Nothing is left out where no media block is empty. -/
theorem prune_of_filled {nodes : List Node} (h : Everywhere filled nodes) : prune nodes = nodes := by
  have hlist : ∀ nodes : List Node, (∀ n ∈ nodes, pruneAt n = [n]) → prune nodes = nodes := by
    intro nodes hnodes
    rw [prune_eq_flatMap, List.flatMap_congr hnodes, List.flatMap_singleton']
  have hnode : ∀ node, Everywhere filled [node] → pruneAt node = [node] := by
    intro node
    induction node using Node.inductionOnBlock with
    | step node ih =>
        intro hnode
        obtain ⟨hfilled, hblock⟩ := Node.everywhere_singleton.1 hnode
        have hprune : prune node.block = node.block :=
          hlist node.block fun n hn => ih n hn (Node.everywhere_iff.1 hblock n hn)
        have hself : pruneIn node = node := by
          rw [Node.pruneIn_eq, hprune]
          cases node with
          | layer | media | rule | atRule | declaration | comment | statement => rfl
        rw [filled, Bool.not_eq_true'] at hfilled
        rw [pruneAt, hself, hfilled, if_neg Bool.false_ne_true]
  exact hlist nodes fun n hn => hnode n (Node.everywhere_iff.1 h n hn)

variable {nodes : List Node}

theorem Merged.sortedConditions_eq (h : Merged nodes) : sortedConditions nodes = conditions nodes := by
  rw [sortedConditions, eraseDups_eq_self h.nodup]
  exact List.mergeSort_of_pairwise h.sorted

/-- Merging leaves what is merged. -/
theorem Merged.normalize_eq (h : Merged nodes) : normalize nodes = nodes := by
  rw [Media.normalize_eq, prune_of_filled h.filled, h.sortedConditions_eq]
  exact h.split.symm

/-- There is nothing to report of what is merged. -/
theorem Merged.report_eq (h : Merged nodes) : report nodes = {} := by
  have hemptied : prunedCount nodes = 0 := by
    have htally := tally_prune (k := .media) nodes
    rw [prune_of_filled h.filled, if_pos rfl] at htally
    omega
  have hmerged : (Parts.of nodes).merged = 0 := by
    have hlength := merged_add_length nodes
    rw [eraseDups_eq_self h.nodup] at hlength
    omega
  rw [report, prune_of_filled h.filled, hemptied, hmerged]

/-! ## What comes out is merged -/

/-- A list of nodes that are no media blocks. -/
theorem conditions_others (nodes : List Node) : conditions (others nodes) = [] := by
  rw [conditions, others, List.filterMap_filter, List.filterMap_eq_nil_iff]
  intro node _
  cases node with
  | media | layer | rule | atRule | declaration | comment | statement => rfl

section Blocks

variable (order : List String) (held : String → List Node)

/-- The media blocks with some conditions in their order. -/
def blocks : List Node := order.map fun condition => .media condition (held condition)

theorem conditions_blocks : conditions (blocks order held) = order := by
  rw [conditions, blocks, List.filterMap_map]
  exact List.filterMap_some

theorem others_blocks : others (blocks order held) = [] := by
  rw [others, blocks, List.filter_map, List.map_eq_nil_iff, List.filter_eq_nil_iff]
  intro condition _
  exact Bool.false_ne_true

/-- What stands under a condition is in the block with this condition, if there is one such block. -/
theorem contents_blocks (hnodup : order.Nodup) {condition : String} (hmem : condition ∈ order) :
    contents condition (blocks order held) = held condition := by
  have hself : ∀ other, contentsAt condition (.media other (held other)) =
      if other = condition then held condition else [] := by
    intro other
    rw [contentsAt]
    split
    · next heq => rw [heq]
    · rfl
  rw [contents, blocks, List.flatMap_map]
  simp only [hself]
  induction order with
  | nil => cases hmem
  | cons first order ih =>
      obtain ⟨hfirst, horder⟩ := List.nodup_cons.1 hnodup
      rw [List.flatMap_cons]
      by_cases heq : first = condition
      · subst heq
        have hnone : (order.flatMap fun other => if other = first then held first else []) = [] := by
          rw [List.flatMap_eq_nil_iff]
          intro other hother
          rw [if_neg]
          rintro rfl
          exact hfirst hother
        rw [if_pos rfl, hnone, List.append_nil]
      · rw [if_neg heq, List.nil_append]
        exact ih horder ((List.mem_cons.1 hmem).resolve_left (Ne.symm heq))

end Blocks

theorem conditions_append (a b : List Node) : conditions (a ++ b) = conditions a ++ conditions b :=
  List.filterMap_append

/-- The other nodes and then a block for each condition. -/
theorem conditions_normalize (nodes : List Node) :
    conditions (normalize nodes) = sortedConditions (prune nodes) := by
  rw [normalize_eq, conditions_append, conditions_others, List.nil_append]
  exact conditions_blocks _ _

/-- What comes out of merging is merged. -/
theorem merged_normalize (nodes : List Node) : Merged (normalize nodes) := by
  have hnodup : (sortedConditions (prune nodes)).Nodup :=
    (List.mergeSort_perm _ _).nodup_iff.2 (nodup_eraseDups _)
  have hothers : others (normalize nodes) = others (prune nodes) := by
    rw [normalize_eq, others, List.filter_append]
    refine (congrArg₂ (· ++ ·) ?_ (others_blocks _ _)).trans (List.append_nil _)
    rw [others, List.filter_filter]
    simp only [Bool.and_self]
  have hcontents : ∀ condition ∈ sortedConditions (prune nodes),
      contents condition (normalize nodes) = contents condition (prune nodes) := by
    intro condition hmem
    have hnone : contents condition (others (prune nodes)) = [] := by
      refine contents_eq_nil ?_
      rw [conditions_others]
      exact List.not_mem_nil
    rw [normalize_eq, contents, List.flatMap_append, ← contents, hnone, List.nil_append]
    exact contents_blocks _ _ hnodup hmem
  refine ⟨everywhere_filled_normalize nodes, ?_, ?_, ?_⟩
  · rw [hothers, conditions_normalize]
    conv_lhs => rw [normalize_eq]
    refine congrArg _ (List.map_congr_left fun condition hmem => ?_)
    rw [hcontents condition hmem]
  · rw [conditions_normalize]
    exact hnodup
  · rw [conditions_normalize]
    exact List.pairwise_mergeSort (fun a b c => Order.le_trans (Order.of a) (Order.of b) (Order.of c))
      (fun a b => Order.le_total (Order.of a) (Order.of b)) _

/-- A second run leaves the tree as it is and reports no block that was emptied and none that was
merged. -/
theorem normalize_normalize (nodes : List Node) :
    normalize (normalize nodes) = normalize nodes ∧
      (report (normalize nodes)).emptied = 0 ∧ (report (normalize nodes)).merged = 0 := by
  have hmerged := merged_normalize nodes
  rw [hmerged.report_eq]
  exact ⟨hmerged.normalize_eq, rfl, rfl⟩

end Stylesheet.Media
