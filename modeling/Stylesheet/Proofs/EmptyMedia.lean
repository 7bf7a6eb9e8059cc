import Stylesheet.Proofs.Processing

/-!
# Empty media blocks

Merging media blocks leaves none of them empty, at any depth (`everywhere_filled_normalize`).  But
comments are removed after that, and what a media block held may have been nothing else.  So an empty
media block in a processed stylesheet stems from one whose contents were just comments that had to go,
and each such block leaves one (`process_filled_iff`).

No other pass has a part in this.  Purging comes before media blocks are merged, and the passes that fuse
neither make a media block nor empty one.
-/

namespace Stylesheet

open Node (Everywhere)

namespace Media

/-- A node is filled if it is no empty media block. -/
def filled (node : Node) : Bool := !isEmptyMedia node

/-! ## Merging leaves no empty block -/

theorem everywhere_filled_prune (nodes : List Node) : Everywhere filled (prune nodes) := by
  have hnode : ∀ node, Everywhere filled (pruneAt node) := by
    intro node
    induction node using Node.inductionOnBlock with
    | step node ih =>
        rw [pruneAt]
        split
        · exact Node.everywhere_nil
        · next hfilled =>
            rw [Node.everywhere_singleton, Node.block_pruneIn, prune_eq_flatMap]
            exact ⟨by simpa [filled] using hfilled, Node.everywhere_flatMap.2 ih⟩
  rw [prune_eq_flatMap]
  exact Node.everywhere_flatMap.2 fun n _ => hnode n

/-- What stands under a condition is not empty if a filled block has this condition. -/
theorem contents_ne_nil {condition : String} {nodes : List Node} (h : Everywhere filled nodes)
    (hcondition : condition ∈ conditions nodes) : contents condition nodes ≠ [] := by
  obtain ⟨node, hnode, hsome⟩ := List.mem_filterMap.1 hcondition
  have hfilled := (Node.everywhere_singleton.1 (Node.everywhere_iff.1 h node hnode)).1
  intro hnil
  have hcontents := List.flatMap_eq_nil_iff.1 hnil node hnode
  cases node with
  | media other children =>
      obtain rfl := Option.some.inj hsome
      rw [contentsAt, if_pos rfl] at hcontents
      rw [hcontents] at hfilled
      cases hfilled
  | layer | rule | atRule | declaration | comment | statement => cases hsome

/-- Merging media blocks leaves none of them empty, at any depth. -/
theorem everywhere_filled_normalize (nodes : List Node) : Everywhere filled (normalize nodes) := by
  have hpruned := everywhere_filled_prune nodes
  rw [normalize_eq, Node.everywhere_append]
  refine ⟨hpruned.of_subset fun n hn => (List.mem_filter.1 hn).1,
    Node.everywhere_iff.2 fun n hn => ?_⟩
  obtain ⟨condition, hcondition, rfl⟩ := List.mem_map.1 hn
  rw [sortedConditions, List.mem_mergeSort, List.mem_eraseDups] at hcondition
  refine Node.everywhere_singleton.2 ⟨?_, hpruned.contents condition⟩
  cases hcontents : contents condition (prune nodes) with
  | nil => exact absurd hcontents (contents_ne_nil hpruned hcondition)
  | cons => rfl

end Media

/-! ## Removing comments -/

namespace Comment

variable {removal : Removal} {nodes : List Node}

/-- There is something in a block, but only comments that are to be removed. -/
def OnlyRemoved (removal : Removal) (children : List Node) : Prop :=
  children ≠ [] ∧ ∀ node ∈ children, ∃ text, node = .comment text ∧ removal.removes text = true

theorem keeps_eq_false_iff {node : Node} :
    keeps removal node = false ↔ ∃ text, node = .comment text ∧ removal.removes text = true := by
  cases node with
  | comment text => simp [keeps]
  | layer | media | rule | atRule | declaration | statement => simp [keeps]

/-- A node that is filled also when comments have been removed. -/
def staysFilled (removal : Removal) : Node → Bool
  | .media _ children => children.any (keeps removal)
  | _ => true

theorem staysFilled_eq (node : Node) :
    staysFilled removal node =
      (!keeps removal node || Media.filled (Node.retainIn (keeps removal) node)) := by
  cases node with
  | media condition children =>
      rw [staysFilled, Node.retainIn]
      cases hretain : Node.retain (keeps removal) children with
      | nil =>
          rw [Node.retain_eq_nil_iff.1 hretain]
          rfl
      | cons n ns =>
          have hany := mt Node.retain_eq_nil_iff.2 (hretain ▸ List.cons_ne_nil n ns)
          rw [Bool.not_eq_false] at hany
          rw [hany]
          rfl
  | comment text => simp [staysFilled, Media.filled, Media.isEmptyMedia, Node.retainIn]
  | layer | rule | atRule | declaration | statement => rfl

theorem everywhere_filled_remove_iff :
    Everywhere Media.filled (remove removal nodes) ↔ Everywhere (staysFilled removal) nodes := by
  have hleaf : ∀ node, keeps removal node = false → node.block = [] := by
    intro node hnode
    obtain ⟨text, rfl, -⟩ := keeps_eq_false_iff.1 hnode
    rfl
  rw [remove, Node.everywhere_retain_iff hleaf, funext staysFilled_eq]

/-- In a tree without empty media blocks, those that do not stay filled hold only comments that are to be
removed. -/
theorem everywhere_staysFilled_iff (h : Everywhere Media.filled nodes) :
    Everywhere (staysFilled removal) nodes ↔
      ∀ condition children, .media condition children ∈ Node.all nodes →
        ¬ OnlyRemoved removal children := by
  have hmedia : ∀ condition children, .media condition children ∈ Node.all nodes →
      (OnlyRemoved removal children ↔ staysFilled removal (.media condition children) = false) := by
    intro condition children hmem
    have hne : children ≠ [] := by
      rintro rfl
      cases h _ hmem
    rw [OnlyRemoved, and_iff_right hne, staysFilled, List.any_eq_false]
    exact forall₂_congr fun n _ => by rw [← keeps_eq_false_iff, Bool.not_eq_true]
  constructor
  · intro hstays condition children hmem honly
    rw [hmedia condition children hmem, hstays _ hmem] at honly
    cases honly
  · intro hnone node hmem
    cases node with
    | media condition children =>
        rw [← Bool.not_eq_false, ← hmedia condition children hmem]
        exact hnone condition children hmem
    | layer | rule | atRule | declaration | comment | statement => rfl

end Comment

namespace Pipeline

/-! ## The whole stylesheet -/

theorem everywhere_filled_treat_iff (allow : Option AllowList) (options : Options) (name : String)
    (nodes : List Node) :
    Everywhere Media.filled (treat allow options name nodes).nodes ↔
      Everywhere (Comment.staysFilled options.optimize.comments)
        (merged allow options name nodes) := by
  have hhead : ∀ node, Media.filled (Node.outlineAt node) = Media.filled node := by
    intro node
    cases node with
    | media condition children =>
        cases children with
        | nil | cons => rfl
    | layer | rule | atRule | declaration | comment | statement => rfl
  rw [nodes_treat, everywhere_fused_iff (fun _ => rfl) hhead, Comment.everywhere_filled_remove_iff]

/-- A processed stylesheet has no empty media block if and only if each media block that removing
comments finds in a layer stays filled. -/
theorem everywhere_filled_process_iff [Pattern.Engine] (files : FileSystem) (options : Options)
    (document : Document) :
    Everywhere Media.filled (process files options document).document.nodes ↔
      ∀ name block, (name, block) ∈ Layer.visits (plan options) (Charset.strip document.nodes) →
        Everywhere (Comment.staysFilled options.optimize.comments)
          (merged (allowList? files options.purge) options name block.children) := by
  have hcharset : Everywhere Media.filled
      (if options.optimize.charset then [Charset.utf8] else []) := by
    split
    · exact Node.everywhere_singleton.2 ⟨rfl, Node.everywhere_nil⟩
    · exact Node.everywhere_nil
  rw [nodes_process, Node.everywhere_append, and_iff_right hcharset,
    everywhere_organized_iff files options document (fun _ => rfl) (fun _ => rfl) (fun _ => rfl)]
  simp only [everywhere_filled_treat_iff]

/-- Where no comments are removed, no media block is left empty. -/
theorem everywhere_filled_process_of_none [Pattern.Engine] (files : FileSystem) {options : Options}
    (document : Document) (hmedia : options.optimize.mediaQueries = true)
    (hcomments : options.optimize.comments = .none) :
    Everywhere Media.filled (process files options document).document.nodes := by
  rw [everywhere_filled_process_iff]
  intro name block _
  rw [merged, if_pos hmedia, hcomments,
    Comment.everywhere_staysFilled_iff (Media.everywhere_filled_normalize _)]
  rintro condition children - ⟨hne, honly⟩
  obtain ⟨node, hnode⟩ := List.exists_mem_of_ne_nil children hne
  obtain ⟨text, -, hremoved⟩ := honly node hnode
  cases hremoved

/-- Where media blocks are merged, a processed stylesheet has no empty media block at any depth if and
only if no media block of a layer, once this is purged and its media blocks are merged, holds nothing but
comments that are to be removed. -/
theorem process_filled_iff [Pattern.Engine] (files : FileSystem) (options : Options)
    (document : Document) (hmedia : options.optimize.mediaQueries = true) :
    (∀ node ∈ Node.all (process files options document).document.nodes,
        Media.isEmptyMedia node = false) ↔
      ∀ name block, (name, block) ∈ Layer.visits (plan options) (Charset.strip document.nodes) →
        ∀ condition children,
          .media condition children ∈ Node.all (Media.normalize
            (purgeLayer (allowList? files options.purge) options name block.children).nodes) →
          ¬ Comment.OnlyRemoved options.optimize.comments children := by
  have hall := everywhere_filled_process_iff files options document
  simp only [merged, if_pos hmedia,
    Comment.everywhere_staysFilled_iff (Media.everywhere_filled_normalize _)] at hall
  rw [← hall, Everywhere]
  exact forall₂_congr fun node _ => by rw [Media.filled, Bool.not_eq_true']

/-- The comment in a media block goes, and the block stays. -/
theorem process_filled_iff_print :
    ({ purge := { enabled := false } } : Options).optimize.mediaQueries = true ∧
      ¬ ∀ node ∈ Node.all (process (FileTree.directory []) { purge := { enabled := false } }
          ⟨[.layer (some "base") [.media "print" [.comment " c "]]]⟩).document.nodes,
        Media.isEmptyMedia node = false := by
  refine ⟨rfl, fun hfilled => ?_⟩
  have hnone := (process_filled_iff (FileTree.directory []) { purge := { enabled := false } }
    ⟨[.layer (some "base") [.media "print" [.comment " c "]]]⟩ rfl).1 hfilled
  refine hnone "base" ⟨some "base", [.media "print" [.comment " c "]]⟩ List.mem_cons_self
    "print" [.comment " c "] ?_ ?_
  · -- There is one condition, so there is nothing to sort.
    have hsorted : Media.sortedConditions (Media.prune [.media "print" [.comment " c "]]) =
        ["print"] := List.mergeSort_singleton _
    have hnormalize : Media.normalize [.media "print" [.comment " c "]] =
        [.media "print" [.comment " c "]] := by
      rw [Media.normalize_eq, hsorted]
      rfl
    show _ ∈ Node.all (Media.normalize [_])
    rw [hnormalize]
    exact List.mem_cons_self
  · refine ⟨List.cons_ne_nil _ _, fun node hnode => ⟨" c ", List.mem_singleton.1 hnode, ?_⟩⟩
    decide +kernel

end Pipeline

end Stylesheet
