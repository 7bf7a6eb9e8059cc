import Stylesheet.Proofs.Processing
import Stylesheet.Proofs.Reorganizing

/-!
# Exempt layers

A layer that is exempt from purging is treated as if nothing were to be purged.  So the exempt layers of a
processed stylesheet do not depend on the options for purging, nor on the files that are scanned for names
(`exemptLayers_process_congr`), although the other layers, and the statement that orders all of them, do.

What the names in use can reach is followed in three steps.

* An exempt block comes out of its treatment as without an allow-list (`treatBlock_of_exempt`).
* Blocks keep their names when they are treated, so the exempt ones among the blocks that come back are
  those that come back for exempt calls (`filter_key_returned`).
* Which calls there are is settled before anything is purged, and the orphans are one of them
  (`exemptLayers_process`).
-/

namespace Stylesheet

namespace Layer

/-- The layer blocks at the top level whose key is one of some names. -/
def exemptLayers (exempt : List String) (nodes : List Node) : List Block :=
  (blocks nodes).filter fun block => exempt.contains block.key

/-- The calls for groups that have one of some names. -/
def exemptCalls (exempt : List String) (calls : List (String × Block)) : List (String × Block) :=
  calls.filter fun (name, _) => exempt.contains name

variable {transform transform' : String → Block → Block} {calls : List (String × Block)}

/-- What comes back from some calls depends on these calls alone. -/
theorem returned_congr
    (h : ∀ name block, (name, block) ∈ calls → transform name block = transform' name block) :
    returned transform calls = returned transform' calls := by
  rw [returned, returned]
  exact congrArg _ (List.map_congr_left fun call hcall => h call.1 call.2 hcall)

/-- If blocks are called under their keys and keep them, the exempt blocks that come back are those that
come back from the exempt calls. -/
theorem filter_key_returned
    (hkey : ∀ name block, (name, block) ∈ calls → (transform name block).key = name)
    (exempt : List String) :
    (returned transform calls).filter (fun block => exempt.contains block.key) =
      returned transform (exemptCalls exempt calls) := by
  rw [returned, returned, exemptCalls, List.filter_comm, List.filter_map]
  refine congrArg _ (congrArg _ (List.filter_congr fun call hcall => ?_))
  show exempt.contains (transform call.1 call.2).key = exempt.contains call.1
  rw [hkey call.1 call.2 hcall]

end Layer

namespace Pipeline

open Layer

/-- An exempt block is treated as without an allow-list. -/
theorem treatBlock_of_exempt (allow : Option AllowList) {options : Options} {name : String}
    (h : options.layers.exempt.contains name = true) (block : Block) :
    treatBlock allow options name block = treatBlock none options name block := by
  have hpurge : purgeLayer allow options name block.children =
      purgeLayer none options name block.children := by
    cases allow with
    | none => rfl
    | some list => rw [purgeLayer, if_pos h, purgeLayer]
  rw [treatBlock, treatBlock, treat, treat, hpurge]

variable [Pattern.Engine] (files : FileSystem) (options : Options) (document : Document)

/-- The layer blocks at the top level of a processed stylesheet are its layers. -/
theorem blocks_process :
    blocks (process files options document).document.nodes = layers files options document := by
  have hcharset : blocks (if options.optimize.charset then [Charset.utf8] else []) = [] := by
    split
    · rfl
    · rfl
  rw [nodes_process, blocks, List.filterMap_append, ← blocks, ← blocks, hcharset, List.nil_append,
    organized, blocks_organize, map_snd_survivors, layers]

/-- The exempt layers of a processed stylesheet are what is left of the exempt blocks, and of the orphans
if their layer is exempt, when they are treated without an allow-list. -/
theorem exemptLayers_process :
    exemptLayers options.layers.exempt (process files options document).document.nodes =
      returned (treatBlock none options)
        (exemptCalls options.layers.exempt
          (visits (plan options) (Charset.strip document.nodes))) := by
  rw [exemptLayers, blocks_process, layers, filter_key_returned]
  · refine returned_congr fun name block hcall => ?_
    exact treatBlock_of_exempt _ (List.mem_filter.1 hcall).2 block
  · intro name block hcall
    rw [key_treatBlock, key_of_mem_visits hcall]

/-- The exempt layers of a processed stylesheet, with their names, contents and order, are the same
whatever is to be purged, and whatever stands in the files that are scanned for names. -/
theorem exemptLayers_process_congr (files files' : FileSystem) (options : Options)
    (purge : PurgeOptions) (document : Document) :
    exemptLayers options.layers.exempt (process files options document).document.nodes =
      exemptLayers options.layers.exempt
        (process files' { options with purge := purge } document).document.nodes := by
  have hpurge := exemptLayers_process files' { options with purge := purge } document
  rw [exemptLayers_process]
  exact hpurge.symm

end Pipeline

end Stylesheet
