import Stylesheet.Proofs.FusionTwice
import Stylesheet.Proofs.ShortForm
import Stylesheet.Proofs.ValueGuard

/-!
# Backgrounds treated twice

A second run of the pass makes no shorthand: the longhands of a body that was fused are gone, and in
the others what kept them from being fused is still there, since a value that was shortened has several
layers after a second run if it has several before (`fuse?_map_normalizeNode`).

But it can still change values.  The pass shortens values before it fuses them, and goes through the pairs
of repeat keywords once.  So a pair that comes out of a pair is left for a second run, and so is what is
not in short form in a shorthand that was made.  The main result `optimize_settles_iff` says that a second
run changes nothing exactly when all values are in short form that the first run leaves, and that in a body
without backslashes and without a new shorthand only pairs of repeat keywords can be left.
-/

namespace Stylesheet.Background

open Stylesheet.Value

/-! ## Nothing more to fuse -/

theorem value?_map_normalizeNode (name : String) (body : List Node) :
    Body.value? name (body.map normalizeNode) = (Body.value? name body).map (normalizeValue name) := by
  have hdeclared : Body.declared name (body.map normalizeNode) =
      (Body.declared name body).map shortened := concerning_map_normalizeNode (· == name) body
  rw [Body.value?, hdeclared, Body.value?]
  cases hname : Body.declared name body with
  | nil => rfl
  | cons d ds =>
      have hd : d ∈ Body.declared name body := by simp [hname]
      have hproperty : d.property = name := (Body.mem_declared.1 hd).2
      rw [List.map_cons, List.head?_cons, List.head?_cons, ← hproperty]
      rfl

theorem contributors_map_normalizeNode (body : List Node) :
    family.contributors (body.map normalizeNode) = (family.contributors body).map shortened :=
  concerning_map_normalizeNode (fun name => family.longhands.contains name) body

theorem compose_ne_none_iff {values : List (Option String)} :
    compose values ≠ none ↔
      2 ≤ (values.filterMap id).length ∧ ∀ value ∈ values.filterMap id, isMultiLayer value = false := by
  rw [compose]
  split
  · next h =>
      refine iff_of_false (fun hne => hne rfl) ?_
      rintro ⟨hlength, hone⟩
      rw [Bool.or_eq_true, decide_eq_true_eq, List.any_eq_true] at h
      rcases h with h | ⟨value, hvalue, hmulti⟩
      · omega
      · rw [hone value hvalue] at hmulti
        cases hmulti
  · next h =>
      rw [Bool.or_eq_true, decide_eq_true_eq, not_or, Bool.not_eq_true, List.any_eq_false] at h
      exact iff_of_true (by simp) ⟨by omega, fun value hvalue => Bool.eq_false_iff.2 (h.2 value hvalue)⟩

/-- Short values that can be put together after they were shortened again can be put together. -/
theorem compose_of_map_normalizeNode {body : List Node} {names : List String}
    (h : compose (names.map fun name =>
      Body.value? name ((body.map normalizeNode).map normalizeNode)) ≠ none) :
    compose (names.map fun name => Body.value? name (body.map normalizeNode)) ≠ none := by
  rw [compose_ne_none_iff, List.filterMap_map, List.length_filterMap_eq_countP] at h ⊢
  obtain ⟨hlength, hone⟩ := h
  refine ⟨?_, fun value hvalue => ?_⟩
  · simpa only [Function.comp_def, id, value?_map_normalizeNode, Option.isSome_map] using hlength
  · obtain ⟨name, hname, hvalue⟩ := List.mem_filterMap.1 hvalue
    have hagain : isMultiLayer (normalizeValue name value) = false := by
      refine hone _ (List.mem_filterMap.2 ⟨name, hname, ?_⟩)
      rw [Function.comp_apply, id, value?_map_normalizeNode]
      rw [Function.comp_apply, id] at hvalue
      rw [hvalue]
      rfl
    rw [Function.comp_apply, id, value?_map_normalizeNode] at hvalue
    obtain ⟨written, -, rfl⟩ := Option.map_eq_some_iff.1 hvalue
    cases hmulti : isMultiLayer (normalizeValue name written) with
    | false => rfl
    | true =>
        rw [isMultiLayer_normalizeValue name written hmulti] at hagain
        cases hagain

theorem bare_normalizeNode (node : Node) : (normalizeNode node).bare = node.bare := by
  cases node with
  | declaration | layer | media | rule | comment | statement | atRule => rfl

/-- What keeps a body with short values from being fused keeps it from that when they are shortened
again. -/
theorem fuse?_map_normalizeNode {body : List Node}
    (h : family.fuse? (body.map normalizeNode) = none) :
    family.fuse? ((body.map normalizeNode).map normalizeNode) = none := by
  have hnodup : family.longhands.Nodup := Pass.nodup_longhands .background
  by_contra hfuse
  have hvalue : family.compose (family.longhands.map fun name =>
      Body.value? name (body.map normalizeNode)) ≠ none :=
    compose_of_map_normalizeNode (Family.compose_ne_none_of_fuse? hnodup hfuse)
  have hsame := (Body.SameButValues.map bare_normalizeNode (body.map normalizeNode)).symm
  exact Family.fuse?_ne_none_of_sameButValues hnodup hsame hfuse hvalue h

/-- A second run only shortens values. -/
theorem fuseBody_fuseBody (body : List Node) :
    fuseBody (fuseBody body).1 = ((fuseBody body).1.map normalizeNode, 0) := by
  have hnodup : family.longhands.Nodup := Pass.nodup_longhands .background
  have hnone : family.fuse? ((fuseBody body).1.map normalizeNode) = none := by
    rw [fuseBody]
    cases hfuse : family.fuse? (body.map normalizeNode) with
    | none =>
        rw [Family.fuse_of_none hfuse]
        exact fuse?_map_normalizeNode hfuse
    | some fused =>
        rw [Family.fuse_of_some hfuse]
        refine Family.fuse?_eq_none_of_contributors hnodup ?_
        rw [contributors_map_normalizeNode,
          Family.contributors_of_fuse? hnodup (by decide) hfuse]
        rfl
  rw [fuseBody, Family.fuse, hnone]

/-! ## Values that stay -/

theorem shortened_eq_self_iff {d : Declaration} :
    shortened d = d ↔ (rewrites d.property ≠ [] → IsShort d.property d.value) := by
  have hvalue : shortened d = d ↔ normalizeValue d.property d.value = d.value :=
    ⟨congrArg Declaration.value, fun h => by rw [shortened, h]⟩
  rw [hvalue]
  by_cases hnil : rewrites d.property = []
  · exact iff_of_true (normalizeValue_of_nil hnil _) fun h => absurd hnil h
  · rw [normalizeValue_eq_self_iff hnil, forall_prop_of_true hnil]

/-- Shortening the values of a body changes its declarations if it changes anything. -/
theorem map_normalizeNode_of_declarations {body : List Node}
    (h : ∀ d ∈ Body.declarations body, shortened d = d) : body.map normalizeNode = body := by
  refine (List.map_congr_left fun node hnode => ?_).trans (List.map_id body)
  cases node with
  | declaration d => exact congrArg Node.declaration (h d (Body.mem_declarations.2 hnode))
  | layer | media | rule | comment | statement | atRule => rfl

/-- In a body without backslashes in which nothing is fused, values are left in short form unless pairs
of repeat keywords are left in them. -/
theorem isShort_of_fuseBody_iff {body : List Node} (hnone : (fuseBody body).2 = 0)
    (hplain : ∀ d ∈ Body.declarations body, '\\' ∉ d.value.toList) :
    ∀ d ∈ Body.declarations (fuseBody body).1, rewrites d.property ≠ [] →
      (IsShort d.property d.value ↔ (d.property ≠ "background-position" →
        ∀ layer ∈ layers d.value, (components layer).IsChain fun first second =>
          repeatPair? first second = none)) := by
  have hbody : (fuseBody body).1 = body.map normalizeNode := by
    rw [fuseBody, Family.fuse] at hnone ⊢
    split at hnone
    · cases hnone
    · rfl
  rw [hbody, declarations_map_normalizeNode, List.forall_mem_map]
  intro d hd hrewrites
  exact isShort_normalizeValue_iff hrewrites (hplain d hd)

/-! ## Trees -/

theorem run_mapBodies (f : List Node → List Node) (body : List Node) :
    fuseBody (Node.mapBodies f body) = (Node.mapBodies f (fuseBody body).1, (fuseBody body).2) :=
  Pass.background.run_mapBodies f body

theorem bodies_optimize (nodes : List Node) :
    Node.bodies (optimize nodes) =
      (Node.bodies nodes).map fun body =>
        Node.mapBodies (fun inner => (fuseBody inner).1) (fuseBody body).1 :=
  Pass.background.bodies_optimize nodes

/-- In the bodies of a tree that was treated nothing is fused. -/
theorem fuseBody_of_mem_bodies_optimize {nodes body : List Node}
    (h : body ∈ Node.bodies (optimize nodes)) : fuseBody body = (body.map normalizeNode, 0) := by
  rw [bodies_optimize] at h
  obtain ⟨before, -, rfl⟩ := List.mem_map.1 h
  have hcount : (fuseBody (Node.mapBodies (fun inner => (fuseBody inner).1) (fuseBody before).1)).2 = 0 := by
    rw [run_mapBodies, fuseBody_fuseBody]
  rw [fuseBody, Family.fuse] at hcount ⊢
  split at hcount
  · cases hcount
  · rfl

/-- A second run makes no shorthand. -/
theorem fusedCount_optimize (nodes : List Node) : fusedCount (optimize nodes) = 0 := by
  rw [fusedCount]
  refine List.foldrRecOn (motive := fun n => n = 0) _ _ rfl ?_
  intro n hn body hbody
  rw [fuseBody_of_mem_bodies_optimize hbody, hn]

/-- A second run changes nothing exactly when the first leaves no value that is not in short form. -/
theorem optimize_optimize_eq_iff_isShort {nodes : List Node} :
    optimize (optimize nodes) = optimize nodes ↔
      ∀ body ∈ Node.bodies (optimize nodes), ∀ d ∈ Body.declarations body,
        rewrites d.property ≠ [] → IsShort d.property d.value := by
  simp only [← shortened_eq_self_iff]
  constructor
  · intro hsame body hbody
    have hbodies := congrArg Node.bodies hsame
    rw [bodies_optimize] at hbodies
    have hbody' := List.map_inj_left.1 (hbodies.trans (List.map_id _).symm) body hbody
    rw [fuseBody_of_mem_bodies_optimize hbody] at hbody'
    -- What is done to the bodies inside does not matter for the declarations.
    have hdeclarations := congrArg Body.declarations hbody'
    rw [Node.declarations_mapBodies, declarations_map_normalizeNode] at hdeclarations
    exact List.map_inj_left.1 (hdeclarations.trans (List.map_id _).symm)
  · intro h
    refine Node.mapBodies_eq_self fun body hbody => ?_
    rw [fuseBody_of_mem_bodies_optimize hbody]
    exact map_normalizeNode_of_declarations (h body hbody)

/-- A second run of the pass makes no shorthand, and changes nothing exactly when all background values
are in short form that the first run leaves.  In a body without backslashes in which the first run makes
no shorthand, they are in short form unless pairs of repeat keywords are left in them. -/
theorem optimize_settles_iff (nodes : List Node) :
    fusedCount (optimize nodes) = 0 ∧
      (optimize (optimize nodes) = optimize nodes ↔
        ∀ body ∈ Node.bodies (optimize nodes), ∀ d ∈ Body.declarations body,
          d.property ∈ ["background", "background-repeat", "background-position"] →
          IsShort d.property d.value) ∧
      ∀ body ∈ Node.bodies nodes, (fuseBody body).2 = 0 →
        (∀ d ∈ Body.declarations body, '\\' ∉ d.value.toList) →
        ∀ d ∈ Body.declarations (fuseBody body).1,
          d.property ∈ ["background", "background-repeat", "background-position"] →
          (IsShort d.property d.value ↔ (d.property ≠ "background-position" →
            ∀ layer ∈ layers d.value, (components layer).IsChain fun first second =>
              repeatPair? first second = none)) := by
  simp only [← rewrites_ne_nil_iff]
  exact ⟨fusedCount_optimize nodes, optimize_optimize_eq_iff_isShort,
    fun _ _ => isShort_of_fuseBody_iff⟩

-- A pair comes out of a pair.
example : normalizeValue "background-repeat" "repeat repeat no-repeat" = "repeat no-repeat" ∧
    normalizeValue "background-repeat" "repeat no-repeat" = "repeat-x" := by
  decide

end Stylesheet.Background
