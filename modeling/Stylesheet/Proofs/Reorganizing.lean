import Mathlib
import Stylesheet.Proofs.LayerWalk

/-!
# Organizing twice

An organized stylesheet has a statement in front, layers that are grouped by name, and comments behind
them.  To organize it again is to drop the statement, to group the layers, among them that of the orphans,
which is now a layer like the others, and to write the statement anew.  When the transformation leaves
every block as it is, nothing changes by that (`organize_organize`).

The layers that come out of the first run are grouped (`survivors_visits`): each name of the document has
its blocks in one place, and the orphans are last.  That is what needs a hypothesis.  If a layer already has
the name that the orphans get, there are two groups of this name, and the second run puts them together.
-/

namespace Stylesheet.Layer

/-! ## Survivors of the identity -/

/-- The transformation that leaves every block as it is. -/
def unchanged (_ : String) (block : Block) : Block := block

theorem survivors_unchanged (calls : List (String × Block)) :
    survivors unchanged calls = calls.filter fun (_, block) => !block.children.isEmpty := by
  rw [survivors]
  exact congrArg _ (List.map_id calls)

/-- Nothing is lost when surviving blocks are left as they are. -/
theorem survivors_survivors (calls : List (String × Block)) :
    survivors unchanged (survivors unchanged calls) = survivors unchanged calls := by
  simp only [survivors_unchanged, List.filter_filter, Bool.and_self]

variable (plan : Plan) (nodes : List Node)

/-- The calls for a name whose blocks are not empty. -/
def filledCalls (name : String) : List (String × Block) :=
  survivors unchanged (((blocksOf name nodes).map fun block => (name, block)) ++
    if name = plan.orphansName then orphanCalls plan nodes else [])

/-- A call bears the name of its group, which is the key of its block. -/
theorem name_of_mem_filledCalls {name : String} {call : String × Block}
    (h : call ∈ filledCalls plan nodes name) : call.1 = name ∧ call.2.key = name := by
  rw [filledCalls, survivors_unchanged, List.mem_filter, List.mem_append] at h
  rcases h.1 with h | h
  · obtain ⟨block, hblock, rfl⟩ := List.mem_map.1 h
    exact ⟨rfl, of_decide_eq_true (List.mem_filter.1 hblock).2⟩
  · split at h
    · next hname =>
        rw [orphanCalls] at h
        split at h
        · cases h
        · rw [List.mem_singleton.1 h, hname]
          exact ⟨rfl, rfl⟩
    · cases h

variable {plan nodes}

/-- Where no layer has the name of the orphans, the calls are grouped by names. -/
theorem survivors_visits (h : ∀ block ∈ blocks nodes, block.key ≠ plan.orphansName) :
    survivors unchanged (visits plan nodes) =
      (keys nodes ++ [plan.orphansName]).flatMap (filledCalls plan nodes) := by
  have hlayers : ∀ key ∈ keys nodes,
      filledCalls plan nodes key =
        ((blocksOf key nodes).map fun block => (key, block)).filter
          fun (_, block) => !block.children.isEmpty := by
    intro key hkey
    rw [keys, List.mem_eraseDups, List.mem_map] at hkey
    obtain ⟨block, hblock, rfl⟩ := hkey
    rw [filledCalls, if_neg (h block hblock), List.append_nil, survivors_unchanged]
  have hnone : blocksOf plan.orphansName nodes = [] :=
    List.filter_eq_nil_iff.2 fun block hblock heq => h block hblock (of_decide_eq_true heq)
  rw [visits_eq, survivors_unchanged, List.filter_append, List.filter_flatMap, List.flatMap_append,
    List.flatMap_singleton, List.flatMap_congr hlayers, filledCalls, hnone, if_pos rfl,
    List.map_nil, List.nil_append, survivors_unchanged]

theorem nodup_keys_append (h : ∀ block ∈ blocks nodes, block.key ≠ plan.orphansName) :
    (keys nodes ++ [plan.orphansName]).Nodup := by
  refine List.nodup_append.2 ⟨nodup_eraseDups _, List.pairwise_singleton _ _, ?_⟩
  rintro key hkey name hname rfl
  rw [keys, List.mem_eraseDups, List.mem_map] at hkey
  obtain ⟨block, hblock, rfl⟩ := hkey
  exact h block hblock (List.mem_singleton.1 hname)

/-! ## Parts of an organized stylesheet -/

section Organized

variable (transform : String → Block → Block)

/-- The layers of an organized stylesheet are the blocks that survive. -/
theorem blocks_organize : blocks (organize plan transform nodes).nodes =
    (survivors transform (visits plan nodes)).map Prod.snd := by
  have hfirst : ∀ names, (orderStatement? names).toList.filterMap block? = [] := by
    intro names
    rw [toList_orderStatement?]
    split
    · rfl
    · rfl
  have hcomments : (nodes.filter isSourceMap).filterMap block? = [] := by
    refine List.filterMap_eq_nil_iff.2 fun node hnode => ?_
    cases node with
    | layer name children => cases (List.mem_filter.1 hnode).2
    | media | rule | comment | declaration | statement | atRule => rfl
  rw [blocks, organize, List.filterMap_append, List.filterMap_append, hfirst, hcomments,
    List.filterMap_map, List.append_nil, List.nil_append]
  exact List.filterMap_eq_map (f := Prod.snd) ▸ rfl

/-- An organized stylesheet has no orphans. -/
theorem orphans_organize : orphans (organize plan transform nodes).nodes = [] := by
  refine List.filter_eq_nil_iff.2 fun node hnode => ?_
  rw [organize] at hnode
  rcases List.mem_append.1 hnode with hnode | hnode
  · rcases List.mem_append.1 hnode with hnode | hnode
    · rw [toList_orderStatement?] at hnode
      split at hnode
      · cases hnode
      · rw [List.mem_singleton.1 hnode]
        exact Bool.false_ne_true
    · obtain ⟨call, -, rfl⟩ := List.mem_map.1 hnode
      exact Bool.false_ne_true
  · cases node with
    | comment text =>
        have hmap : Node.isSourceMapComment text = true := (List.mem_filter.1 hnode).2
        rw [isOrphan, hmap]
        exact Bool.false_ne_true
    | layer | media | rule | declaration | statement | atRule =>
        cases (List.mem_filter.1 hnode).2

/-- Organizing keeps the comments that point to a source map, and makes no others. -/
theorem filter_isSourceMap_organize :
    (organize plan transform nodes).nodes.filter isSourceMap = nodes.filter isSourceMap := by
  have hfirst : ∀ names, (orderStatement? names).toList.filter isSourceMap = [] := by
    intro names
    rw [toList_orderStatement?]
    split
    · rfl
    · rfl
  have hblocks : ∀ kept : List (String × Block),
      (kept.map fun (_, block) => block.node).filter isSourceMap = [] := by
    intro kept
    refine List.filter_eq_nil_iff.2 fun node hnode => ?_
    obtain ⟨call, -, rfl⟩ := List.mem_map.1 hnode
    exact Bool.false_ne_true
  rw [organize, List.filter_append, List.filter_append, hfirst, hblocks, List.filter_filter]
  simp only [Bool.and_self, List.nil_append]

end Organized

/-! ## Organizing once more -/

/-- The calls for an organized stylesheet are those whose blocks have survived. -/
theorem visits_organize (h : ∀ block ∈ blocks nodes, block.key ≠ plan.orphansName) :
    visits plan (organize plan unchanged nodes).nodes = survivors unchanged (visits plan nodes) := by
  have hname : ∀ name, ∀ call ∈ filledCalls plan nodes name, call.1 = name :=
    fun name call hcall => (name_of_mem_filledCalls plan nodes hcall).1
  have hkey : ∀ call ∈ survivors unchanged (visits plan nodes), call.2.key = call.1 := by
    intro call hcall
    rw [survivors_visits h] at hcall
    obtain ⟨name, -, hcall⟩ := List.mem_flatMap.1 hcall
    obtain ⟨hfst, hsnd⟩ := name_of_mem_filledCalls plan nodes hcall
    rw [hfst, hsnd]
  have hkeys : keys (organize plan unchanged nodes).nodes =
      ((survivors unchanged (visits plan nodes)).map Prod.fst).eraseDups := by
    rw [keys, blocks_organize, List.map_map]
    exact congrArg _ (List.map_congr_left hkey)
  have hblocks : ∀ name, ((blocksOf name (organize plan unchanged nodes).nodes).map
      fun block => (name, block)) =
        (survivors unchanged (visits plan nodes)).filter fun call => call.1 = name := by
    intro name
    rw [blocksOf, blocks_organize, List.filter_map, List.map_map]
    have hsame : ((survivors unchanged (visits plan nodes)).filter
        ((fun block : Block => decide (block.key = name)) ∘ Prod.snd)) =
          (survivors unchanged (visits plan nodes)).filter fun call => call.1 = name :=
      List.filter_congr fun call hcall => by rw [Function.comp_apply, hkey call hcall]
    rw [hsame]
    refine (List.map_congr_left fun call hcall => ?_).trans (List.map_id _)
    rw [Function.comp_apply, ← of_decide_eq_true (List.mem_filter.1 hcall).2]
    rfl
  rw [visits_eq, orphanCalls, if_pos (orphans_organize unchanged), List.append_nil, hkeys]
  simp only [hblocks]
  rw [survivors_visits h]
  exact flatMap_filter_eraseDups (nodup_keys_append h) hname

/-- An organized stylesheet stays as it is when it is organized again, with the same names, unless one of
its layers had the name of the layer of the orphans. -/
theorem organize_organize (plan : Plan) (nodes : List Node)
    (h : ∀ block ∈ blocks nodes, block.key ≠ plan.orphansName) :
    organize plan unchanged (organize plan unchanged nodes).nodes = organize plan unchanged nodes := by
  have hsurvivors := congrArg (survivors unchanged) (visits_organize h)
  rw [survivors_survivors] at hsurvivors
  rw [organize, hsurvivors, filter_isSourceMap_organize]
  rfl

/-- Layers of one name stand apart, and one of them is empty. -/
def scattered : List Node :=
  [.layer (some "b") [.comment "1"], .statement "layer" "c, b", .rule "r" [],
    .layer (some "a") [.comment "2"], .comment "# sourceMappingURL=s", .layer none [],
    .layer (some "b") [.comment "3"]]

theorem organize_organize_scattered :
    (∀ block ∈ blocks scattered, block.key ≠ "orphans") ∧
      organize ⟨"orphans", ["a"]⟩ unchanged (organize ⟨"orphans", ["a"]⟩ unchanged scattered).nodes =
        ⟨[.statement "layer" "a, b, orphans", .layer (some "b") [.comment "1"],
          .layer (some "b") [.comment "3"], .layer (some "a") [.comment "2"],
          .layer (some "orphans") [.rule "r" []], .comment "# sourceMappingURL=s"],
          ["a", "b", "orphans"]⟩ := by
  have h : ∀ block ∈ blocks scattered, block.key ≠ "orphans" := by decide +kernel
  refine ⟨h, ?_⟩
  rw [organize_organize ⟨"orphans", ["a"]⟩ scattered h]
  cbv

end Stylesheet.Layer
