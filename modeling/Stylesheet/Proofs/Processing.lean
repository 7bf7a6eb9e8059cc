import Stylesheet.Pipeline
import Stylesheet.Proofs.Everywhere
import Stylesheet.Proofs.LayerWalk

/-!
# The shape of a processed stylesheet

However a stylesheet is nested and whatever the options ask for, what comes out of `Pipeline.process` has
the same shape: the character set if it is asked for, the statement that orders the layers if there are
any, the layers, and the comments that point to a source map (`process_shape`).

* The contents of a layer go through purging, merging of media blocks, removal of comments and the passes
  that fuse (`nodes_treat`).  None of these takes a durable property from them (`everywhere_treat`), so no
  directive that names the character set comes back, and no comment that was removed.
* The blocks of the result are treated blocks that were visited, each under its key (`mem_returned_iff`).
* Removing comments at the top level has nothing to do, since only comments that point to a source map
  are left there (`removeAtRoot_organize`).
-/

namespace Stylesheet

open Node (Everywhere Durable)

theorem Charset.durable_isCharset : Durable fun node => !isCharset node where
  withChildren node children := by
    cases node with
    | layer | media | rule | atRule | declaration | comment | statement => rfl
  media _ _ := rfl
  rule _ _ := rfl
  declaration _ := rfl

theorem Comment.durable_keeps (removal : Removal) : Durable (keeps removal) where
  withChildren node children := by
    cases node with
    | layer | media | rule | atRule | declaration | comment | statement => rfl
  media _ _ := rfl
  rule _ _ := rfl
  declaration _ := rfl

namespace Pipeline

/-! ## The contents of a layer -/

theorem nodes_run (t : Treated) (asked : Bool) (change : List Node → List Node)
    (count : List Node → BlockReport) :
    (t.run asked change count).nodes = if asked then change t.nodes else t.nodes := by
  rw [Treated.run]
  split
  · rfl
  · rfl

/-- The contents of a layer when comments are to be removed: purged, and with media blocks merged. -/
def merged (allow : Option AllowList) (options : Options) (name : String) (nodes : List Node) :
    List Node :=
  if options.optimize.mediaQueries then Media.normalize (purgeLayer allow options name nodes).nodes
  else (purgeLayer allow options name nodes).nodes

/-- The passes that fuse and are asked for, in their order. -/
def askedPasses (options : OptimizeOptions) : List Pass :=
  (if options.background then [.background] else []) ++
    (if options.border then [.border] else []) ++ if options.font then [.font] else []

/-- The nodes after some passes that fuse, one after the other. -/
def fused (passes : List Pass) (nodes : List Node) : List Node :=
  passes.foldl (fun nodes pass => pass.optimize nodes) nodes

theorem fused_append (first second : List Pass) (nodes : List Node) :
    fused (first ++ second) nodes = fused second (fused first nodes) :=
  List.foldl_append

/-- A pass runs if it is asked for. -/
theorem fused_asked (asked : Bool) (pass : Pass) (nodes : List Node) :
    fused (if asked then [pass] else []) nodes = if asked then pass.optimize nodes else nodes := by
  cases asked with
  | true | false => rfl

theorem nodes_treat (allow : Option AllowList) (options : Options) (name : String)
    (nodes : List Node) :
    (treat allow options name nodes).nodes =
      fused (askedPasses options.optimize)
        (Comment.remove options.optimize.comments (merged allow options name nodes)) := by
  simp only [treat, nodes_run, if_true, merged, askedPasses, fused_append, fused_asked]
  rfl

variable {p : Node → Bool} {nodes : List Node}

theorem everywhere_fused_iff (hdeclaration : ∀ d, p (.declaration d) = true)
    (hhead : ∀ node, p (Node.outlineAt node) = p node) (passes : List Pass) :
    Everywhere p (fused passes nodes) ↔ Everywhere p nodes := by
  induction passes generalizing nodes with
  | nil => exact Iff.rfl
  | cons pass passes ih => exact ih.trans (Node.everywhere_optimize_iff hdeclaration hhead pass)

theorem everywhere_fused (h : Durable p) (passes : List Pass) (hnodes : Everywhere p nodes) :
    Everywhere p (fused passes nodes) :=
  (everywhere_fused_iff h.declaration h.outlineAt passes).2 hnodes

theorem everywhere_merged (h : Durable p) (allow : Option AllowList) (options : Options)
    (name : String) (hnodes : Everywhere p nodes) :
    Everywhere p (merged allow options name nodes) := by
  have hpurged : Everywhere p (purgeLayer allow options name nodes).nodes := by
    cases allow with
    | none => exact hnodes
    | some list =>
        simp only [purgeLayer]
        split
        · exact hnodes
        · exact h.purge list hnodes
  rw [merged]
  split
  · exact h.normalize hpurged
  · exact hpurged

/-- Treating the contents of a layer takes no durable property from them. -/
theorem everywhere_treat (h : Durable p) (allow : Option AllowList) (options : Options)
    (name : String) (hnodes : Everywhere p nodes) :
    Everywhere p (treat allow options name nodes).nodes := by
  rw [nodes_treat]
  exact everywhere_fused h _ (h.retain _ (everywhere_merged h allow options name hnodes))

/-- No comment that is to be removed is left in a layer. -/
theorem everywhere_keeps_treat (allow : Option AllowList) (options : Options) (name : String)
    (nodes : List Node) :
    Everywhere (Comment.keeps options.optimize.comments)
      (treat allow options name nodes).nodes := by
  have hdurable := Comment.durable_keeps options.optimize.comments
  rw [nodes_treat]
  exact everywhere_fused hdurable _ (Node.everywhere_retain hdurable.withChildren _)

end Pipeline

/-! ## The layers -/

namespace Layer

variable {plan : Plan} {nodes : List Node}

/-- Each block is visited under its key. -/
theorem key_of_mem_visits {name : String} {block : Block} (h : (name, block) ∈ visits plan nodes) :
    block.key = name := by
  rcases mem_visits_iff.1 h with ⟨-, hkey⟩ | horphans
  · exact hkey
  · obtain ⟨-, rfl, rfl⟩ := mem_orphanCalls_iff.1 horphans
    rfl

/-- What holds everywhere in a stylesheet holds everywhere in the blocks that are visited. -/
theorem everywhere_of_mem_visits {p : Node → Bool} {name : String} {block : Block}
    (hnodes : Everywhere p nodes) (h : (name, block) ∈ visits plan nodes) :
    Everywhere p block.children := by
  rcases mem_visits_iff.1 h with ⟨hblock, -⟩ | horphans
  · obtain ⟨node, hnode, hsome⟩ := List.mem_filterMap.1 hblock
    have hthere := Node.everywhere_iff.1 hnodes node hnode
    cases node with
    | layer name children =>
        obtain rfl := Option.some.inj hsome
        exact (Node.everywhere_singleton.1 hthere).2
    | media | rule | atRule | declaration | comment | statement => cases hsome
  · obtain ⟨-, -, rfl⟩ := mem_orphanCalls_iff.1 horphans
    exact hnodes.of_subset fun n hn => (List.mem_filter.1 hn).1

theorem mem_returned_iff {transform : String → Block → Block} {calls : List (String × Block)}
    {after : Block} :
    after ∈ returned transform calls ↔
      after.children ≠ [] ∧ ∃ name block, (name, block) ∈ calls ∧ transform name block = after := by
  simp [returned, and_comm]

/-- At the top level of an organized stylesheet there are only comments that stay. -/
theorem removeAtRoot_organize (removal : Comment.Removal) (plan : Plan)
    (transform : String → Block → Block) (nodes : List Node) :
    Comment.removeAtRoot removal (organize plan transform nodes).nodes =
      (organize plan transform nodes).nodes := by
  rw [Comment.removeAtRoot, List.filter_eq_self, nodes_organize]
  intro node hnode
  rcases List.mem_append.1 hnode with hfront | hcomment
  · rcases List.mem_append.1 hfront with hstatement | hblock
    · split at hstatement
      · cases hstatement
      · rw [List.mem_singleton.1 hstatement]
        rfl
    · obtain ⟨block, -, rfl⟩ := List.mem_map.1 hblock
      rfl
  · obtain ⟨-, hsource⟩ := List.mem_filter.1 hcomment
    cases node with
    | comment text =>
        rw [Comment.keepsAtRoot]
        exact (Bool.or_eq_true _ _).mpr (.inl hsource)
    | layer | media | rule | atRule | declaration | statement => cases hsource

/-- Comments that point to a source map are not removed with the directives for the character set. -/
theorem filter_isSourceMap_strip (nodes : List Node) :
    (Charset.strip nodes).filter isSourceMap = nodes.filter isSourceMap := by
  have hall : nodes.filter isSourceMap = nodes.flatMap fun node => [node].filter isSourceMap := by
    rw [← List.filter_flatMap, List.flatMap_singleton']
  rw [Charset.strip, Node.retain_eq_flatMap, List.filter_flatMap, hall]
  refine List.flatMap_congr fun node _ => ?_
  rw [Node.retainAt]
  cases node with
  | comment text => simp [Charset.isCharset, Node.retainIn, List.filter_cons]
  | layer | media | rule | declaration => rfl
  | statement | atRule =>
      split
      · rfl
      · rfl

end Layer

namespace Pipeline

open Layer

/-! ## The whole stylesheet -/

theorem key_treatBlock (allow : Option AllowList) (options : Options) (name : String)
    (block : Block) : (treatBlock allow options name block).key = block.key := rfl

variable [Pattern.Engine] (files : FileSystem) (options : Options) (document : Document)

/-- The stylesheet without the directives for the character set, gathered into treated layers. -/
def organized : Organized :=
  organize (plan options) (treatBlock (allowList? files options.purge) options)
    (Charset.strip document.nodes)

/-- The layers of a processed stylesheet. -/
def layers : List Block :=
  returned (treatBlock (allowList? files options.purge) options)
    (visits (plan options) (Charset.strip document.nodes))

theorem nodes_process :
    (process files options document).document.nodes =
      (if options.optimize.charset then [Charset.utf8] else []) ++
        (organized files options document).nodes := by
  rw [process, removeAtRoot_organize, organized]
  dsimp only
  split
  · rfl
  · rfl

theorem nodes_organized :
    (organized files options document).nodes =
      (if (organized files options document).names = [] then []
        else [.statement "layer" (Text.join ", " (organized files options document).names)]) ++
        (layers files options document).map Block.node ++ document.nodes.filter isSourceMap := by
  rw [organized, nodes_organize, filter_isSourceMap_strip, layers]

/-- A layer is a visited block after treatment, and there is something in it. -/
theorem mem_layers_iff {layer : Block} :
    layer ∈ layers files options document ↔
      layer.children ≠ [] ∧ ∃ name block,
        (name, block) ∈ visits (plan options) (Charset.strip document.nodes) ∧
          treatBlock (allowList? files options.purge) options name block = layer :=
  mem_returned_iff

/-- The names of the layers are their keys. -/
theorem mem_names_organized_iff {name : String} :
    name ∈ (organized files options document).names ↔
      ∃ layer ∈ layers files options document, layer.key = name := by
  rw [organized, names_organize, mem_orderNames, mem_survivingNames_iff]
  constructor
  · rintro ⟨block, hblock, hchildren⟩
    refine ⟨_, (mem_layers_iff files options document).2 ⟨hchildren, name, block, hblock, rfl⟩, ?_⟩
    rw [key_treatBlock, key_of_mem_visits hblock]
  · rintro ⟨layer, hlayer, rfl⟩
    obtain ⟨hchildren, name, block, hblock, rfl⟩ := (mem_layers_iff files options document).1 hlayer
    rw [key_treatBlock, key_of_mem_visits hblock]
    exact ⟨block, hblock, hchildren⟩

/-- A property of layers, comments and statements that order layers holds everywhere in the organized
stylesheet if it holds everywhere in the treated blocks. -/
theorem everywhere_organized_iff {p : Node → Bool} (hlayer : ∀ block : Block, p block.node = true)
    (hcomment : ∀ text, p (.comment text) = true)
    (hstatement : ∀ params, p (.statement "layer" params) = true) :
    Everywhere p (organized files options document).nodes ↔
      ∀ name block, (name, block) ∈ visits (plan options) (Charset.strip document.nodes) →
        Everywhere p (treat (allowList? files options.purge) options name block.children).nodes := by
  have hstatements : Everywhere p (if (organized files options document).names = [] then []
      else [.statement "layer" (Text.join ", " (organized files options document).names)]) := by
    split
    · exact Node.everywhere_nil
    · exact Node.everywhere_singleton.2 ⟨hstatement _, Node.everywhere_nil⟩
  have hcomments : Everywhere p (document.nodes.filter isSourceMap) := by
    refine Node.everywhere_iff.2 fun node hnode => ?_
    obtain ⟨-, hsource⟩ := List.mem_filter.1 hnode
    cases node with
    | comment text => exact Node.everywhere_singleton.2 ⟨hcomment text, Node.everywhere_nil⟩
    | layer | media | rule | atRule | declaration | statement => cases hsource
  have hlayers : Everywhere p ((layers files options document).map Block.node) ↔
      ∀ layer ∈ layers files options document, Everywhere p layer.children := by
    rw [Node.everywhere_iff, List.forall_mem_map]
    exact forall₂_congr fun layer _ => Node.everywhere_singleton.trans (and_iff_right (hlayer layer))
  rw [nodes_organized, Node.everywhere_append, Node.everywhere_append, and_iff_right hstatements,
    and_iff_left hcomments, hlayers]
  constructor
  · intro hall name block hblock
    by_cases hempty : (treat (allowList? files options.purge) options name block.children).nodes = []
    · rw [hempty]
      exact Node.everywhere_nil
    · exact hall _ ((mem_layers_iff files options document).2 ⟨hempty, name, block, hblock, rfl⟩)
  · intro hall layer hlayer
    obtain ⟨-, name, block, hblock, rfl⟩ := (mem_layers_iff files options document).1 hlayer
    exact hall name block hblock

/-- No directive for the character set is left below the top level or at it. -/
theorem everywhere_organized :
    Everywhere (fun node => !Charset.isCharset node) (organized files options document).nodes := by
  have hdurable := Charset.durable_isCharset
  have hstrip : Everywhere (fun node => !Charset.isCharset node) (Charset.strip document.nodes) :=
    Node.everywhere_retain hdurable.withChildren document.nodes
  rw [everywhere_organized_iff files options document (fun _ => rfl) (fun _ => rfl) (fun _ => rfl)]
  intro name block hblock
  exact everywhere_treat hdurable _ options name (everywhere_of_mem_visits hstrip hblock)

/-- A processed stylesheet has the character set in front if it is asked for.  Then comes one statement
that orders the layers, if there are any, then the layers, none of them empty and under just the names of
the statement, and then the comments at the top level that point to a source map.  No other directive
names the character set, and no comment that is to be removed is left in a layer, at any depth. -/
theorem process_shape (files : FileSystem) (options : Options) (document : Document) :
    ∃ (rest : List Node) (layers : List Block),
      (process files options document).document.nodes =
        (if options.optimize.charset then [.statement "charset" "\"UTF-8\""] else []) ++ rest ∧
      rest =
        (if (process files options document).report.layerOrder = [] then []
          else [.statement "layer"
            (Text.join ", " (process files options document).report.layerOrder)]) ++
          layers.map Block.node ++ document.nodes.filter isSourceMap ∧
      (∀ layer ∈ layers, layer.children ≠ []) ∧
      (∀ name, name ∈ (process files options document).report.layerOrder ↔
        ∃ layer ∈ layers, layer.key = name) ∧
      (∀ node ∈ Node.all rest, Charset.isCharset node = false) ∧
      ∀ layer ∈ layers, ∀ text, .comment text ∈ Node.all layer.children →
        options.optimize.comments.removes text = false := by
  refine ⟨(organized files options document).nodes, layers files options document,
    nodes_process files options document, nodes_organized files options document, ?_,
    fun name => mem_names_organized_iff files options document, ?_, ?_⟩
  · exact fun layer hlayer => ((mem_layers_iff files options document).1 hlayer).1
  · intro node hnode
    simpa using everywhere_organized files options document node hnode
  · intro layer hlayer text htext
    obtain ⟨-, name, block, -, rfl⟩ := (mem_layers_iff files options document).1 hlayer
    simpa [Comment.keeps] using everywhere_keeps_treat _ options name block.children _ htext

end Pipeline

end Stylesheet
