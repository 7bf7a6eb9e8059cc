import Stylesheet.Proofs.LayerOrder

/-!
# The walk over the layers

`Layer.organize` says what comes of transforming layer blocks, and not how often the transformation is
called.  Here it is computed by a walk that keeps a record: it goes over the groups, and over the blocks
of a group, calls the transformation on each, and puts down the call, the block that comes back unless
it is empty, and the name of its group unless it is there already.

* One step adds one call (`Walk.visit`), and a run over some calls records these calls, their survivors
  and the distinct names of them (`foldl_visit`).
* The walk is `organize` (`organize_eq_organized`).
* The calls are the visits (`calls_walk`), so they can be told from the nodes of the stylesheet.

The main statement is `organize_gathered`.
-/

namespace Stylesheet.Layer

/-! ## The walk -/

/-- What a walk over layer blocks has recorded. -/
structure Walk where
  /-- The calls of the transformation, each with the name of the group and the block. -/
  calls : List (String × Block) := []
  /-- The blocks that came back and are not empty. -/
  blocks : List Block := []
  /-- The names of their groups. -/
  names : List String := []

/-- Call the transformation on a block of a group. -/
def Walk.visit (transform : String → Block → Block) (walk : Walk) (name : String) (block : Block) :
    Walk :=
  let after := transform name block
  if after.children.isEmpty then { walk with calls := walk.calls ++ [(name, block)] }
  else
    { calls := walk.calls ++ [(name, block)]
      blocks := walk.blocks ++ [after]
      names := if walk.names.contains name then walk.names else walk.names ++ [name] }

/-- Call the transformation on the blocks of a group. -/
def Walk.visitGroup (transform : String → Block → Block) (walk : Walk) (group : Group) : Walk :=
  group.blocks.foldl (fun walk block => walk.visit transform group.name block) walk

/-- The groups of a stylesheet, and the orphans as a group of their own behind them. -/
def allGroups (plan : Plan) (nodes : List Node) : List Group :=
  groups nodes ++
    ((orphans? plan.orphansName (rest nodes)).map fun block => ⟨plan.orphansName, [block]⟩).toList

/-- The walk over all groups. -/
def walk (plan : Plan) (transform : String → Block → Block) (nodes : List Node) : Walk :=
  (allGroups plan nodes).foldl (Walk.visitGroup transform) {}

/-- The stylesheet that is put together from what a walk has recorded. -/
def Walk.organized (walk : Walk) (plan : Plan) (nodes : List Node) : Organized :=
  let names := orderNames walk.names plan.order
  { nodes :=
      (orderStatement? names).toList ++ walk.blocks.map Block.node ++ nodes.filter isSourceMap
    names }

variable (transform : String → Block → Block)

theorem survivors_append_singleton (calls : List (String × Block)) (name : String) (block : Block) :
    survivors transform (calls ++ [(name, block)]) =
      survivors transform calls ++
        if (transform name block).children.isEmpty then [] else [(name, transform name block)] := by
  rw [survivors, List.map_append, List.filter_append, ← survivors, List.map_singleton,
    List.filter_singleton]
  dsimp only
  cases (transform name block).children.isEmpty with
  | true => rfl
  | false => rfl

/-- A run over some calls records them, their survivors, and the distinct names of these. -/
theorem foldl_visit (calls : List (String × Block)) :
    calls.foldl (fun walk call => walk.visit transform call.1 call.2) {} =
      (⟨calls, (survivors transform calls).map Prod.snd,
        ((survivors transform calls).map Prod.fst).eraseDups⟩ : Walk) := by
  induction calls using List.reverseRecOn with
  | nil => rfl
  | append_singleton calls call ih =>
      obtain ⟨name, block⟩ := call
      rw [List.foldl_append, ih, List.foldl_cons, List.foldl_nil, survivors_append_singleton,
        Walk.visit]
      cases (transform name block).children.isEmpty with
      | true => simp only [if_true, List.append_nil]
      | false =>
          simp only [Bool.false_eq_true, if_false, List.map_append, List.map_singleton,
            eraseDups_append_singleton, List.contains_iff_mem, List.mem_eraseDups]
          split
          · rw [List.append_nil]
          · rfl

/-- The walk goes over the blocks that are to be visited. -/
theorem walk_eq_foldl (plan : Plan) (nodes : List Node) :
    walk plan transform nodes =
      (visits plan nodes).foldl (fun walk call => walk.visit transform call.1 call.2) {} := by
  have hvisits : visits plan nodes = (allGroups plan nodes).flatMap fun group =>
      group.blocks.map fun block => (group.name, block) := by
    rw [visits, allGroups, List.flatMap_append]
    refine congrArg (_ ++ ·) ?_
    cases orphans? plan.orphansName (rest nodes) with
    | none => rfl
    | some block => rfl
  rw [walk, hvisits, List.foldl_flatMap]
  refine List.foldl_ext _ _ _ fun walk group _ => ?_
  rw [Walk.visitGroup, List.foldl_map]

theorem calls_walk (plan : Plan) (nodes : List Node) :
    (walk plan transform nodes).calls = visits plan nodes := by
  rw [walk_eq_foldl, foldl_visit]

/-- What is put together from the records of the walk is the organized stylesheet. -/
theorem organize_eq_organized (plan : Plan) (nodes : List Node) :
    organize plan transform nodes = (walk plan transform nodes).organized plan nodes := by
  rw [walk_eq_foldl, foldl_visit, Walk.organized, organize, List.map_map]
  rfl

/-! ## What the calls are, and what comes of them -/

/-- The blocks that come back from some calls and are not empty. -/
def returned (calls : List (String × Block)) : List Block :=
  (calls.map fun (name, block) => transform name block).filter fun block => !block.children.isEmpty

theorem map_snd_survivors (calls : List (String × Block)) :
    (survivors transform calls).map Prod.snd = returned transform calls := by
  rw [returned, survivors, List.filter_map, List.filter_map, List.map_map]
  rfl

theorem names_organize_eq_nil_iff (plan : Plan) (nodes : List Node) :
    (organize plan transform nodes).names = [] ↔
      returned transform (visits plan nodes) = [] := by
  rw [names_organize, orderNames_eq_nil_iff, survivingNames_eq, ← map_snd_survivors,
    List.map_eq_nil_iff, List.map_eq_nil_iff]

theorem nodes_organize (plan : Plan) (nodes : List Node) :
    (organize plan transform nodes).nodes =
      (if (organize plan transform nodes).names = [] then []
        else [.statement "layer" (Text.join ", " (organize plan transform nodes).names)]) ++
        (returned transform (visits plan nodes)).map Block.node ++ nodes.filter isSourceMap := by
  rw [← toList_orderStatement?, ← map_snd_survivors, List.map_map]
  rfl

/-- The calls of the transformation and the organized stylesheet, in terms of the nodes of the stylesheet
before. -/
structure Gathered (plan : Plan) (transform : String → Block → Block) (nodes : List Node)
    (calls : List (String × Block)) (result : Organized) : Prop where
  /-- The transformation is called once on each layer block, with its key, and once on the orphans. -/
  once : calls.Perm
    ((blocks nodes).map (fun block => (block.key, block)) ++ orphanCalls plan nodes)
  /-- The calls go key by key, and block by block for a key.  The orphans are last, also when there are
  layers of the same name. -/
  calls_eq : calls =
    ((keys nodes).flatMap fun key => (blocksOf key nodes).map fun block => (key, block)) ++
      orphanCalls plan nodes
  /-- No key comes twice. -/
  nodup_keys : (keys nodes).Nodup
  /-- The keys are those of the layer blocks. -/
  mem_keys_iff : ∀ key, key ∈ keys nodes ↔ ∃ block ∈ blocks nodes, block.key = key
  /-- The keys come in the order in which they occur first. -/
  pairwise_keys : (keys nodes).Pairwise fun a b =>
    ((blocks nodes).map Block.key).idxOf a < ((blocks nodes).map Block.key).idxOf b
  /-- In front stands the statement that orders the layers, if a block survives, then come the blocks
  that have nodes after the transformation, in the order of the calls, and then the comments that point
  to a source map. -/
  nodes_eq : result.nodes =
    (if returned transform calls = [] then []
      else [.statement "layer" (Text.join ", " result.names)]) ++
      (returned transform calls).map Block.node ++ nodes.filter isSourceMap
  /-- Where there is nothing to gather, the transformation is not called, and nothing is left but the
  comments that point to a source map. -/
  nothing : blocks nodes = [] → orphans nodes = [] →
    calls = [] ∧ result = ⟨nodes.filter isSourceMap, []⟩

theorem gathered_visits (plan : Plan) (nodes : List Node) :
    Gathered plan transform nodes (visits plan nodes) (organize plan transform nodes) where
  once := visits_perm plan nodes
  calls_eq := visits_eq plan nodes
  nodup_keys := nodup_eraseDups _
  mem_keys_iff key := by rw [keys, List.mem_eraseDups, List.mem_map]
  pairwise_keys := pairwise_eraseDups _
  nodes_eq := by
    rw [nodes_organize]
    simp only [names_organize_eq_nil_iff]
  nothing := by
    intro hblocks horphans
    have hcalls : visits plan nodes = [] := by
      rw [visits_eq, keys, hblocks, orphanCalls, if_pos horphans]
      rfl
    have hnames : (organize plan transform nodes).names = [] := by
      rw [names_organize_eq_nil_iff, hcalls]
      rfl
    have hnodes : (organize plan transform nodes).nodes = nodes.filter isSourceMap := by
      rw [nodes_organize, hnames, if_pos rfl, hcalls]
      rfl
    refine ⟨hcalls, ?_⟩
    calc organize plan transform nodes
        = ⟨(organize plan transform nodes).nodes, (organize plan transform nodes).names⟩ := rfl
      _ = ⟨nodes.filter isSourceMap, []⟩ := by rw [hnodes, hnames]

/-- The walk that calls the transformation block by block gives the organized stylesheet, and it calls
and gathers as `Gathered` says. -/
theorem organize_gathered (plan : Plan) (transform : String → Block → Block) (nodes : List Node) :
    organize plan transform nodes = (walk plan transform nodes).organized plan nodes ∧
      Gathered plan transform nodes (walk plan transform nodes).calls
        (organize plan transform nodes) := by
  refine ⟨organize_eq_organized transform plan nodes, ?_⟩
  rw [calls_walk]
  exact gathered_visits transform plan nodes

end Stylesheet.Layer
