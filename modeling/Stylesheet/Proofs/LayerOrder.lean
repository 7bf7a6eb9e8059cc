import Mathlib.Data.List.Perm.Basic
import Stylesheet.Proofs.LayerParts

/-!
# The order of layers

`Layer.orderNames` puts two filtered lists together and keeps the first of equal names.  What the result
is can be said without that: `IsOrder` asks for the names of the survivors, each once, those of the
configured order first, and there is one such list (`isOrder_iff`).  Neither list has to be free of
repetitions, and the order may have names that no survivor has.

For an organized stylesheet the survivors are the keys of the layer blocks that have nodes after the
transformation, and the name for the orphans if these have (`survivingNames`).  They are told from the
stylesheet before.  The names stand in the one statement of the result that orders layers.
-/

namespace Stylesheet.Layer

/-! ## Names in order -/

/-- Does a name come before another one when those of `order` come first, in the order in which they
stand there first, and then the others in the order in which they survive first? -/
def Precedes (survivors order : List String) (a b : String) : Prop :=
  (a ∈ order ∧ (b ∈ order → order.idxOf a < order.idxOf b)) ∨
    (a ∉ order ∧ b ∉ order ∧ survivors.idxOf a < survivors.idxOf b)

/-- The names are those of the survivors, each once, and in their order. -/
structure IsOrder (survivors order names : List String) : Prop where
  /-- No name comes twice. -/
  nodup : names.Nodup
  /-- They are the names of the survivors. -/
  mem_iff : ∀ name, name ∈ names ↔ name ∈ survivors
  /-- Those of the order come first. -/
  pairwise : names.Pairwise (Precedes survivors order)

section

variable {survivors order : List String}

theorem Precedes.asymm {a b : String} (h : Precedes survivors order a b) :
    ¬ Precedes survivors order b a := by
  rintro (⟨hb, hba⟩ | ⟨hb, ha, hba⟩)
  · rcases h with ⟨ha, hab⟩ | ⟨-, hb', -⟩
    · exact Nat.lt_asymm (hab hb) (hba ha)
    · exact hb' hb
  · rcases h with ⟨ha', -⟩ | ⟨-, -, hab⟩
    · exact ha ha'
    · exact Nat.lt_asymm hab hba

/-- There is at most one such list. -/
theorem IsOrder.unique {a b : List String} (ha : IsOrder survivors order a)
    (hb : IsOrder survivors order b) : a = b := by
  have hperm : a.Perm b := (List.perm_ext_iff_of_nodup ha.nodup hb.nodup).2 fun name => by
    rw [ha.mem_iff, hb.mem_iff]
  exact hperm.eq_of_pairwise (fun _ _ _ _ hab hba => absurd hba hab.asymm) ha.pairwise hb.pairwise

/-- The names are the distinct names of the order that survive and the distinct other survivors. -/
theorem orderNames_eq (survivors order : List String) :
    orderNames survivors order =
      order.eraseDups.filter survivors.contains ++
        survivors.eraseDups.filter fun name => !order.contains name := by
  have hothers : (survivors.filter fun name => !order.contains name).removeAll
      (order.filter survivors.contains) = survivors.filter fun name => !order.contains name := by
    refine List.filter_eq_self.2 fun name hname => ?_
    have hnot : name ∉ order := by simpa using (List.mem_filter.1 hname).2
    simp [hnot]
  rw [orderNames, List.eraseDups_append, hothers, eraseDups_filter, eraseDups_filter]

/-- Survivors may be listed more than once. -/
theorem orderNames_eraseDups (survivors order : List String) :
    orderNames survivors.eraseDups order = orderNames survivors order := by
  have hcontains : survivors.eraseDups.contains = survivors.contains := by
    funext name
    rw [Bool.eq_iff_iff, List.contains_iff_mem, List.contains_iff_mem, List.mem_eraseDups]
  rw [orderNames_eq, orderNames_eq, hcontains, eraseDups_eq_self (nodup_eraseDups survivors)]

theorem mem_orderNames {name : String} :
    name ∈ orderNames survivors order ↔ name ∈ survivors := by
  simp only [orderNames_eq, List.mem_append, List.mem_filter, List.mem_eraseDups,
    List.contains_iff_mem, Bool.not_eq_true', ← Bool.not_eq_true]
  by_cases hname : name ∈ order
  · simp [hname]
  · simp [hname]

theorem orderNames_eq_nil_iff : orderNames survivors order = [] ↔ survivors = [] := by
  simp only [List.eq_nil_iff_forall_not_mem, mem_orderNames]

theorem isOrder_orderNames (survivors order : List String) :
    IsOrder survivors order (orderNames survivors order) := by
  have hlisted : ∀ name ∈ order.eraseDups.filter survivors.contains, name ∈ order :=
    fun name hname => List.mem_eraseDups.1 (List.mem_filter.1 hname).1
  have hother : ∀ name ∈ survivors.eraseDups.filter (fun name => !order.contains name),
      name ∉ order := by
    intro name hname
    simpa using (List.mem_filter.1 hname).2
  refine ⟨?_, fun name => mem_orderNames, ?_⟩
  · rw [orderNames_eq]
    refine List.nodup_append.2 ⟨(nodup_eraseDups order).filter _, (nodup_eraseDups survivors).filter _, ?_⟩
    rintro a ha b hb rfl
    exact hother a hb (hlisted a ha)
  · rw [orderNames_eq]
    refine List.pairwise_append.2 ⟨?_, ?_, fun a ha b hb => ?_⟩
    · refine ((pairwise_eraseDups order).filter _).imp_of_mem fun ha hb hab => ?_
      exact .inl ⟨hlisted _ ha, fun _ => hab⟩
    · refine ((pairwise_eraseDups survivors).filter _).imp_of_mem fun ha hb hab => ?_
      exact .inr ⟨hother _ ha, hother _ hb, hab⟩
    · exact .inl ⟨hlisted a ha, fun hmem => absurd hmem (hother b hb)⟩

/-- The names in order are the one list that is as it should be. -/
theorem isOrder_iff {names : List String} :
    IsOrder survivors order names ↔ names = orderNames survivors order := by
  constructor
  · exact fun h => h.unique (isOrder_orderNames survivors order)
  · rintro rfl
    exact isOrder_orderNames survivors order

end

/-! ## The names of an organized stylesheet -/

/-- The names of the groups of all blocks that have nodes after the transformation: key by key, and block
by block for a key, with the name for the orphans behind them. -/
def survivingNames (plan : Plan) (transform : String → Block → Block) (nodes : List Node) :
    List String :=
  ((((keys nodes).flatMap fun key => (blocksOf key nodes).map fun block => (key, block)) ++
    orphanCalls plan nodes).filter fun (name, block) =>
      !(transform name block).children.isEmpty).map Prod.fst

variable (plan : Plan) (transform : String → Block → Block) (nodes : List Node)

/-- They are the names of the visited blocks that survive. -/
theorem survivingNames_eq :
    survivingNames plan transform nodes =
      (survivors transform (visits plan nodes)).map Prod.fst := by
  rw [survivingNames, ← visits_eq, survivors, List.filter_map, List.map_map]
  rfl

theorem names_organize :
    (organize plan transform nodes).names =
      orderNames (survivingNames plan transform nodes) plan.order := by
  rw [organize, orderNames_eraseDups, survivingNames_eq]

theorem mem_survivingNames_iff {plan : Plan} {transform : String → Block → Block} {nodes : List Node}
    {name : String} :
    name ∈ survivingNames plan transform nodes ↔
      ∃ block, (name, block) ∈ visits plan nodes ∧ (transform name block).children ≠ [] := by
  rw [survivingNames, ← visits_eq]
  simp

/-- A name is that of a layer block that has nodes after the transformation, or of the orphans if they
have. -/
theorem mem_names_organize_iff (name : String) :
    name ∈ (organize plan transform nodes).names ↔
      (∃ block ∈ blocks nodes, block.key = name ∧ (transform name block).children ≠ []) ∨
        (orphans nodes ≠ [] ∧ name = plan.orphansName ∧
          (transform name ⟨some name, orphans nodes⟩).children ≠ []) := by
  rw [names_organize, mem_orderNames, mem_survivingNames_iff]
  simp only [mem_visits_iff, mem_orphanCalls_iff]
  constructor
  · rintro ⟨block, ⟨hblock, hkey⟩ | ⟨horphans, rfl, rfl⟩, hchildren⟩
    · exact .inl ⟨block, hblock, hkey, hchildren⟩
    · exact .inr ⟨horphans, rfl, hchildren⟩
  · rintro (⟨block, hblock, hkey, hchildren⟩ | ⟨horphans, rfl, hchildren⟩)
    · exact ⟨block, .inl ⟨hblock, hkey⟩, hchildren⟩
    · exact ⟨_, .inr ⟨horphans, rfl, rfl⟩, hchildren⟩

theorem toList_orderStatement? (names : List String) :
    (orderStatement? names).toList =
      if names = [] then [] else [.statement "layer" (Text.join ", " names)] := by
  rw [orderStatement?]
  cases names with
  | nil => rfl
  | cons name names => rfl

/-- Layers and source map comments are no statements, so there is none but the one in front. -/
theorem filter_isStatement_organize :
    (organize plan transform nodes).nodes.filter isStatement =
      (orderStatement? (organize plan transform nodes).names).toList := by
  have hblocks : ∀ kept : List (String × Block),
      (kept.map fun call => call.2.node).filter isStatement = [] := by
    intro kept
    rw [List.filter_eq_nil_iff]
    intro node hnode
    obtain ⟨call, -, rfl⟩ := List.mem_map.1 hnode
    exact Bool.false_ne_true
  have hcomments : (nodes.filter isSourceMap).filter isStatement = [] := by
    rw [List.filter_filter, List.filter_eq_nil_iff]
    intro node _
    cases node with
    | comment text => exact Bool.false_ne_true
    | layer | media | rule | declaration | statement | atRule => simp [isSourceMap]
  have hfirst : ∀ names, (orderStatement? names).toList.filter isStatement =
      (orderStatement? names).toList := by
    intro names
    rw [toList_orderStatement?]
    split
    · rfl
    · rfl
  simp only [organize, List.filter_append, hblocks, hcomments, hfirst, List.append_nil]

/-- Names are put in order as `IsOrder` says, for all lists of survivors and all orders.  The names of
an organized stylesheet are so ordered names of the groups that survive, they are the keys of the layer
blocks that have nodes after the transformation and the name for the orphans if these have, and the one
statement that orders layers lists them. -/
theorem isOrder_names_organize :
    (∀ survivors order names,
      IsOrder survivors order names ↔ names = orderNames survivors order) ∧
    ∀ (plan : Plan) (transform : String → Block → Block) (nodes : List Node),
      IsOrder (survivingNames plan transform nodes) plan.order
          (organize plan transform nodes).names ∧
        (∀ name, name ∈ (organize plan transform nodes).names ↔
          (∃ block ∈ blocks nodes, block.key = name ∧ (transform name block).children ≠ []) ∨
            (orphans nodes ≠ [] ∧ name = plan.orphansName ∧
              (transform name ⟨some name, orphans nodes⟩).children ≠ [])) ∧
        (organize plan transform nodes).nodes.filter isStatement =
          if (organize plan transform nodes).names = [] then []
          else [.statement "layer" (Text.join ", " (organize plan transform nodes).names)] := by
  refine ⟨fun survivors order names => isOrder_iff, fun plan transform nodes => ⟨?_, ?_, ?_⟩⟩
  · exact isOrder_iff.2 (names_organize plan transform nodes)
  · exact mem_names_organize_iff plan transform nodes
  · rw [filter_isStatement_organize, toList_orderStatement?]

end Stylesheet.Layer
