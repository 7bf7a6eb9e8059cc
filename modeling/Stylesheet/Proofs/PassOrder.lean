import Stylesheet.Comment
import Stylesheet.Proofs.LocalChange
import Stylesheet.Proofs.MediaMerge
import Stylesheet.Proofs.PurgeTree

/-!
# The order of the passes

A pass that fuses may run before any other pass or after it, and the tree is the same.

* Two passes that fuse are local to different properties (`Pass.optimize_comm`).
* Purging, leaving out empty media blocks and removing comments are *treatments*: `t : Node → List Node`
  says what is left of a node, and `nodes.flatMap t` is left of a list.  A treatment that keeps declarations
  and makes none changes nothing that a local change looks at (`Pass.optimize_anywhere`).  Merging media
  blocks goes by conditions, which no change of bodies touches.

That changing bodies commutes with a treatment is said of a single node (`Node.Commutes`) and shown by
induction over the tree (`Node.inductionOn`).  Only the step for rules has to know what is done to a body
(`Pass.commutes_rule`).
-/

namespace Stylesheet

namespace Node

/-! ## Treatments -/

/-- Induction over a tree: what is shown of a block may be assumed of the nodes in it. -/
@[elab_as_elim]
theorem inductionOn {motive : Node → Prop}
    (layer : ∀ name children, (∀ n ∈ children, motive n) → motive (.layer name children))
    (media : ∀ condition children, (∀ n ∈ children, motive n) → motive (.media condition children))
    (rule : ∀ selector children, (∀ n ∈ children, motive n) → motive (.rule selector children))
    (atRule : ∀ name params children, (∀ n ∈ children, motive n) →
      motive (.atRule name params children))
    (declaration : ∀ d, motive (.declaration d)) (comment : ∀ text, motive (.comment text))
    (statement : ∀ name params, motive (.statement name params)) (node : Node) : motive node := by
  have hcons : ∀ (node : Node) (nodes : List Node), motive node → (∀ n ∈ nodes, motive n) →
      ∀ n ∈ node :: nodes, motive n := by
    intro node nodes hnode hnodes n hn
    rcases List.mem_cons.1 hn with rfl | hn
    · exact hnode
    · exact hnodes n hn
  exact Node.rec layer media rule declaration comment statement atRule (fun n hn => by cases hn)
    hcons node

theorem mapBodies_eq_map (f : List Node → List Node) (nodes : List Node) :
    mapBodies f nodes = nodes.map (mapBodiesAt f) := by
  induction nodes with
  | nil => rfl
  | cons node nodes ih => rw [mapBodies, ih, List.map_cons]

theorem mapBodies_append (f : List Node → List Node) (a b : List Node) :
    mapBodies f (a ++ b) = mapBodies f a ++ mapBodies f b := by
  rw [mapBodies_eq_map, mapBodies_eq_map, mapBodies_eq_map, List.map_append]

/-- What a treatment leaves of a node does not depend on whether bodies are changed before it or after
it. -/
def Commutes (f : List Node → List Node) (t : Node → List Node) (node : Node) : Prop :=
  t (mapBodiesAt f node) = (t node).map (mapBodiesAt f)

variable {f : List Node → List Node} {t : Node → List Node}

theorem flatMap_mapBodies {nodes : List Node} (h : ∀ n ∈ nodes, Commutes f t n) :
    (mapBodies f nodes).flatMap t = mapBodies f (nodes.flatMap t) := by
  rw [mapBodies_eq_map, mapBodies_eq_map, List.flatMap_map, List.map_flatMap]
  exact List.flatMap_congr h

/-- A block that is no rule, and whose nodes are treated. -/
theorem Commutes.block {make : List Node → Node}
    (hmake : ∀ children, mapBodiesAt f (make children) = make (mapBodies f children))
    (henter : ∀ children, t (make children) = [make (children.flatMap t)]) {children : List Node}
    (h : ∀ n ∈ children, Commutes f t n) : Commutes f t (make children) := by
  rw [Commutes, hmake, henter, henter, flatMap_mapBodies h, List.map_singleton, hmake]

end Node

open Node (Commutes mapBodies mapBodiesAt)

namespace Pass

variable {t : Node → List Node}

/-- What keeps declarations may be done before a pass or after it, in one body. -/
theorem flatMap_fuseBody (pass : Pass) (ht : KeepsDeclarations t) (body : List Node) :
    (pass.fuseBody body).flatMap t = pass.fuseBody (body.flatMap t) := by
  rw [fuseBody_eq_run, fuseBody_eq_run, pass.isLocal_run.flatMap ht]

/-- A rule that stays, with a selector that may be another, and whose body is treated. -/
theorem commutes_rule (pass : Pass) (ht : KeepsDeclarations t) {selector : String} (left : String)
    (henter : ∀ body, t (.rule selector body) = [.rule left (body.flatMap t)]) {children : List Node}
    (h : ∀ n ∈ children, Commutes pass.fuseBody t n) :
    Commutes pass.fuseBody t (.rule selector children) := by
  rw [Commutes, mapBodiesAt, henter, henter, pass.flatMap_fuseBody ht, Node.flatMap_mapBodies h]
  rfl

/-- A pass commutes with a treatment that commutes with it at every node. -/
theorem flatMap_optimize (pass : Pass) (h : ∀ node, Commutes pass.fuseBody t node)
    (nodes : List Node) : (pass.optimize nodes).flatMap t = pass.optimize (nodes.flatMap t) := by
  rw [optimize_eq, optimize_eq, Node.flatMap_mapBodies fun n _ => h n]

/-! ## Two passes that fuse -/

theorem keepsDeclarations_mapBodiesAt (f : List Node → List Node) :
    KeepsDeclarations fun node => [mapBodiesAt f node] := by
  refine ⟨fun _ => rfl, ?_⟩
  intro node hnode n hn
  rw [List.mem_singleton.1 hn, Node.declaration?_mapBodiesAt, hnode]

/-- What is done to a body, and what is reported of it, does not depend on what is done to the bodies
inside it. -/
theorem run_mapBodies (pass : Pass) (f : List Node → List Node) (body : List Node) :
    pass.run (mapBodies f body) = (mapBodies f (pass.run body).1, (pass.run body).2) := by
  rw [Node.mapBodies_eq_map, Node.mapBodies_eq_map, List.map_eq_flatMap, List.map_eq_flatMap]
  exact pass.isLocal_run.flatMap (keepsDeclarations_mapBodiesAt f) body

theorem fuseBody_mapBodies (pass : Pass) (f : List Node → List Node) (body : List Node) :
    pass.fuseBody (mapBodies f body) = mapBodies f (pass.fuseBody body) := by
  rw [fuseBody_eq_run, run_mapBodies, fuseBody_eq_run]

/-- The bodies of a tree that was treated. -/
theorem bodies_optimize (pass : Pass) (nodes : List Node) :
    Node.bodies (pass.optimize nodes) =
      (Node.bodies nodes).map fun body => mapBodies pass.fuseBody (pass.fuseBody body) := by
  rw [optimize_eq, Node.bodies_mapBodies pass.bodies_fuseBody]
  exact List.map_congr_left fun body _ => pass.fuseBody_mapBodies _ body

variable {p q : Pass}

theorem fuseBody_comm (h : p ≠ q) (body : List Node) :
    p.fuseBody (q.fuseBody body) = q.fuseBody (p.fuseBody body) := by
  rw [fuseBody_eq_run, fuseBody_eq_run, fuseBody_eq_run, fuseBody_eq_run]
  exact (p.isLocal_run.comm q.isLocal_run (names_disjoint h) body).1

theorem mapBodiesAt_comm (h : p ≠ q) (node : Node) :
    mapBodiesAt p.fuseBody (mapBodiesAt q.fuseBody node) =
      mapBodiesAt q.fuseBody (mapBodiesAt p.fuseBody node) := by
  have hlist : ∀ children : List Node,
      (∀ n ∈ children, mapBodiesAt p.fuseBody (mapBodiesAt q.fuseBody n) =
        mapBodiesAt q.fuseBody (mapBodiesAt p.fuseBody n)) →
      mapBodies p.fuseBody (mapBodies q.fuseBody children) =
        mapBodies q.fuseBody (mapBodies p.fuseBody children) := by
    intro children ih
    simp only [Node.mapBodies_eq_map, List.map_map]
    exact List.map_congr_left ih
  induction node using Node.inductionOn with
  | layer name children ih => exact congrArg (Node.layer name) (hlist children ih)
  | media condition children ih => exact congrArg (Node.media condition) (hlist children ih)
  | atRule name params children ih => exact congrArg (Node.atRule name params) (hlist children ih)
  | rule selector children ih =>
      refine congrArg (Node.rule selector) ?_
      calc p.fuseBody (mapBodies p.fuseBody (q.fuseBody (mapBodies q.fuseBody children)))
          = p.fuseBody (q.fuseBody (mapBodies p.fuseBody (mapBodies q.fuseBody children))) := by
            rw [q.fuseBody_mapBodies p.fuseBody]
        _ = q.fuseBody (p.fuseBody (mapBodies q.fuseBody (mapBodies p.fuseBody children))) := by
            rw [fuseBody_comm h, hlist children ih]
        _ = q.fuseBody (mapBodies q.fuseBody (p.fuseBody (mapBodies p.fuseBody children))) := by
            rw [p.fuseBody_mapBodies q.fuseBody]
  | declaration | comment | statement => rfl

/-- What a pass reports of the bodies of all rules. -/
def reports (pass : Pass) (nodes : List Node) : List pass.Report :=
  (Node.bodies nodes).map fun body => (pass.run body).2

/-- What a pass reports of a tree. -/
def report : (pass : Pass) → List Node → pass.Report
  | .background => Background.fusedCount
  | .font => Font.fusedCount
  | .border => Border.report

theorem foldr_add_congr {m : List Node → Nat} {a b : List (List Node)} (h : a.map m = b.map m) :
    a.foldr (fun body n => m body + n) 0 = b.foldr (fun body n => m body + n) 0 := by
  have hsum := congrArg (List.foldr (· + ·) 0) h
  rwa [List.foldr_map, List.foldr_map] at hsum

theorem report_congr {pass : Pass} {a b : List Node} (h : pass.reports a = pass.reports b) :
    pass.report a = pass.report b := by
  cases pass with
  | background => exact foldr_add_congr h
  | font => exact foldr_add_congr h
  | border => exact congrArg (List.foldl Border.Report.add {}) h

theorem reports_optimize (h : p ≠ q) (nodes : List Node) :
    p.reports (q.optimize nodes) = p.reports nodes := by
  rw [reports, optimize_eq, Node.bodies_mapBodies q.bodies_fuseBody, List.map_map, reports]
  refine List.map_congr_left fun body _ => ?_
  have hcomm := p.isLocal_run.comm q.isLocal_run (names_disjoint h) (mapBodies q.fuseBody body)
  show (p.run (q.fuseBody (mapBodies q.fuseBody body))).2 = (p.run body).2
  rw [fuseBody_eq_run, hcomm.2.1, run_mapBodies]

/-- Two passes that fuse may run in either order.  The tree is the same, and each reports what it reports
without the other. -/
theorem optimize_comm (h : p ≠ q) (nodes : List Node) :
    p.optimize (q.optimize nodes) = q.optimize (p.optimize nodes) ∧
      p.report (q.optimize nodes) = p.report nodes ∧
      q.report (p.optimize nodes) = q.report nodes := by
  refine ⟨?_, report_congr (reports_optimize h nodes), report_congr (reports_optimize h.symm nodes)⟩
  simp only [optimize_eq, Node.mapBodies_eq_map, List.map_map]
  exact List.map_congr_left fun n _ => mapBodiesAt_comm h n

/-- A background longhand among those of a font. -/
def interleaved : List Node :=
  [.declaration ⟨"font-size", "1px", true⟩, .declaration ⟨"background-position", "left", false⟩,
    .comment "c", .declaration ⟨"font-family", "x", true⟩]

theorem fuseBody_interleaved : Font.fuseBody interleaved =
    ([.declaration ⟨"background-position", "left", false⟩, .comment "c",
      .declaration ⟨"font", "1px x", true⟩], 1) := by
  simp only [Font.fuseBody, Family.fuse, Family.fuse?, Family.anchorIn?, Slots.sharedImportance?,
    Slots.hasInterference, Slots.indices_eq_insertionSort]
  decide +kernel

/-- The background in short form and the font are the same in either order. -/
theorem optimize_comm_interleaved :
    Pass.font ≠ Pass.background ∧
      Pass.font.optimize (Pass.background.optimize [.rule "a" interleaved]) =
        [.rule "a"
          [.declaration ⟨"background-position", "0% 50%", false⟩, .comment "c",
            .declaration ⟨"font", "1px x", true⟩]] ∧
      Pass.font.report (Pass.background.optimize [.rule "a" interleaved]) = (1 : Nat) := by
  have hne : Pass.font ≠ Pass.background := by decide
  obtain ⟨htree, hreport, -⟩ := optimize_comm hne [.rule "a" interleaved]
  refine ⟨hne, ?_, ?_⟩
  · rw [htree]
    show Background.optimize [.rule "a" (Font.fuseBody interleaved).1] = _
    rw [fuseBody_interleaved]
    decide +kernel
  · rw [hreport]
    show (Font.fuseBody interleaved).2 + 0 = 1
    rw [fuseBody_interleaved]

end Pass

/-! ## Purging -/

namespace Purge

theorem nodes_purge_eq_flatMap (allow : AllowList) (nodes : List Node) :
    (purge allow nodes).nodes = nodes.flatMap fun n => (purgeNode allow n).nodes := by
  induction nodes with
  | nil => rw [purge_nil, List.flatMap_nil]
  | cons n ns ih => rw [nodes_purge_cons, ih, List.flatMap_cons]

theorem nodes_purgeNode_rule (allow : AllowList) (selector : String) (children : List Node) :
    (purgeNode allow (.rule selector children)).nodes =
      if isDoomed allow selector then []
      else [.rule (rewritten allow selector)
        (children.flatMap fun n => (purgeNode allow n).nodes)] := by
  rw [(purgeNode_rule allow selector children).1, nodes_purge_eq_flatMap]

theorem nodes_purgeNode_atRule (allow : AllowList) (name params : String) (children : List Node) :
    (purgeNode allow (.atRule name params children)).nodes =
      [.atRule name params (if Node.isKeyframes name then children
        else children.flatMap fun n => (purgeNode allow n).nodes)] := by
  rw [purgeNode, ← nodes_purge_eq_flatMap]
  split
  · rfl
  · rfl

theorem keepsDeclarations_purgeNode (allow : AllowList) :
    KeepsDeclarations fun n => (purgeNode allow n).nodes := by
  refine ⟨fun d => by rw [purgeNode], ?_⟩
  intro node hnode n hn
  cases node with
  | declaration d => cases hnode
  | rule selector children =>
      rw [nodes_purgeNode_rule] at hn
      split at hn
      · cases hn
      · rw [List.mem_singleton.1 hn]
        rfl
  | atRule name params children =>
      rw [nodes_purgeNode_atRule] at hn
      rw [List.mem_singleton.1 hn]
      rfl
  | layer | media | comment | statement =>
      rw [purgeNode] at hn
      rw [List.mem_singleton.1 hn]
      rfl

theorem commutes_purgeNode (pass : Pass) (allow : AllowList) (node : Node) :
    Commutes pass.fuseBody (fun n => (purgeNode allow n).nodes) node := by
  induction node using Node.inductionOn with
  | rule selector children ih =>
      cases hdoomed : isDoomed allow selector with
      | true => simp only [Commutes, mapBodiesAt, nodes_purgeNode_rule, hdoomed, if_true, List.map_nil]
      | false =>
          refine pass.commutes_rule (keepsDeclarations_purgeNode allow) (rewritten allow selector)
            (fun body => ?_) ih
          rw [nodes_purgeNode_rule, hdoomed]
          rfl
  | atRule name params children ih =>
      cases hkeyframes : Node.isKeyframes name with
      | true =>
          simp only [Commutes, mapBodiesAt, nodes_purgeNode_atRule, hkeyframes, if_true,
            List.map_singleton]
      | false =>
          refine .block (fun _ => rfl) (fun children => ?_) ih
          rw [nodes_purgeNode_atRule, hkeyframes]
          rfl
  | layer name children ih | media name children ih =>
      refine .block (fun _ => rfl) (fun children => ?_) ih
      rw [purgeNode, Purged.wrap, nodes_purge_eq_flatMap]
  | declaration d | comment text => simp only [Commutes, mapBodiesAt, purgeNode, List.map_singleton]
  | statement name params => simp only [Commutes, mapBodiesAt, purgeNode, List.map_singleton]

theorem purge_optimize (pass : Pass) (allow : AllowList) (nodes : List Node) :
    (purge allow (pass.optimize nodes)).nodes = pass.optimize (purge allow nodes).nodes := by
  rw [nodes_purge_eq_flatMap, nodes_purge_eq_flatMap,
    pass.flatMap_optimize (commutes_purgeNode pass allow)]

end Purge

/-! ## Media blocks -/

namespace Media

theorem keepsDeclarations_pruneAt : KeepsDeclarations pruneAt := by
  refine ⟨fun _ => rfl, ?_⟩
  intro node hnode n hn
  rw [pruneAt] at hn
  split at hn
  · cases hn
  · rw [List.mem_singleton.1 hn]
    cases node with
    | declaration d => cases hnode
    | layer | media | rule | comment | statement | atRule => rfl

theorem commutes_pruneAt (pass : Pass) (node : Node) : Commutes pass.fuseBody pruneAt node := by
  induction node using Node.inductionOn with
  | rule selector children ih =>
      refine pass.commutes_rule keepsDeclarations_pruneAt selector (fun body => ?_) ih
      rw [← prune_eq_flatMap]
      rfl
  | media condition children ih =>
      have hprune := Node.flatMap_mapBodies ih
      rw [← prune_eq_flatMap, ← prune_eq_flatMap] at hprune
      rw [Commutes, mapBodiesAt, pruneAt_media, pruneAt_media, hprune]
      -- No node is lost when bodies are changed, so no block becomes empty by it.
      cases prune children with
      | nil => rfl
      | cons n ns => rfl
  | layer _ children ih | atRule _ _ children ih =>
      refine .block (fun _ => rfl) (fun children => ?_) ih
      rw [← prune_eq_flatMap]
      rfl
  | declaration | comment | statement => rfl

theorem prune_optimize (pass : Pass) (nodes : List Node) :
    prune (pass.optimize nodes) = pass.optimize (prune nodes) := by
  rw [prune_eq_flatMap, prune_eq_flatMap, pass.flatMap_optimize (commutes_pruneAt pass)]

variable (f : List Node → List Node)

theorem condition?_mapBodiesAt (node : Node) : condition? (mapBodiesAt f node) = condition? node := by
  cases node with
  | declaration | layer | media | rule | comment | statement | atRule => rfl

theorem conditions_mapBodies (nodes : List Node) :
    conditions (mapBodies f nodes) = conditions nodes := by
  rw [Node.mapBodies_eq_map, conditions, List.filterMap_map, conditions]
  exact List.filterMap_congr fun node _ => condition?_mapBodiesAt f node

theorem others_mapBodies (nodes : List Node) :
    others (mapBodies f nodes) = mapBodies f (others nodes) := by
  rw [Node.mapBodies_eq_map, others, List.filter_map, Node.mapBodies_eq_map, others]
  refine congrArg (List.map (mapBodiesAt f)) (List.filter_congr fun node _ => ?_)
  rw [Function.comp_apply, condition?_mapBodiesAt]

theorem contents_mapBodies (condition : String) (nodes : List Node) :
    contents condition (mapBodies f nodes) = mapBodies f (contents condition nodes) := by
  refine Node.flatMap_mapBodies fun node _ => ?_
  cases node with
  | media other children =>
      rw [Commutes, mapBodiesAt, contentsAt, contentsAt, Node.mapBodies_eq_map]
      split
      · rfl
      · rfl
  | declaration | layer | rule | comment | statement | atRule => rfl

theorem normalize_optimize (pass : Pass) (nodes : List Node) :
    normalize (pass.optimize nodes) = pass.optimize (normalize nodes) := by
  have hsorted : sortedConditions (mapBodies pass.fuseBody (prune nodes)) =
      sortedConditions (prune nodes) := by
    rw [sortedConditions, conditions_mapBodies, sortedConditions]
  have hblock : ∀ condition,
      Node.media condition (contents condition (mapBodies pass.fuseBody (prune nodes))) =
        mapBodiesAt pass.fuseBody (.media condition (contents condition (prune nodes))) := by
    intro condition
    rw [contents_mapBodies, mapBodiesAt]
  rw [normalize_eq, prune_optimize, normalize_eq, Pass.optimize_eq, Pass.optimize_eq, hsorted,
    others_mapBodies, Node.mapBodies_append, Node.mapBodies_eq_map pass.fuseBody (List.map _ _),
    List.map_map]
  simp only [hblock]
  rfl

end Media

/-! ## Comments -/

namespace Node

/-- What is left of a node when nodes are removed: nothing of one that `keep` refuses. -/
def retainAt (keep : Node → Bool) (node : Node) : List Node :=
  if keep node then [retainIn keep node] else []

theorem retain_eq_flatMap (keep : Node → Bool) (nodes : List Node) :
    retain keep nodes = nodes.flatMap (retainAt keep) := by
  induction nodes with
  | nil => rfl
  | cons node nodes ih =>
      rw [retain, List.flatMap_cons, ← ih, retainAt]
      split
      · rfl
      · rfl

end Node

namespace Comment

open Node (retainAt retain_eq_flatMap)

variable (removal : Removal)

theorem keepsDeclarations_retainAt : KeepsDeclarations (retainAt (keeps removal)) := by
  refine ⟨fun _ => rfl, ?_⟩
  intro node hnode n hn
  rw [retainAt] at hn
  split at hn
  · rw [List.mem_singleton.1 hn]
    cases node with
    | declaration d => cases hnode
    | layer | media | rule | comment | statement | atRule => rfl
  · cases hn

theorem commutes_retainAt (pass : Pass) (node : Node) :
    Commutes pass.fuseBody (retainAt (keeps removal)) node := by
  induction node using Node.inductionOn with
  | rule selector children ih =>
      refine pass.commutes_rule (keepsDeclarations_retainAt removal) selector (fun body => ?_) ih
      rw [← retain_eq_flatMap]
      rfl
  | layer _ children ih | media _ children ih | atRule _ _ children ih =>
      refine .block (fun _ => rfl) (fun children => ?_) ih
      rw [← retain_eq_flatMap]
      rfl
  | comment text =>
      rw [Commutes, mapBodiesAt, retainAt]
      split
      · rfl
      · rfl
  | declaration | statement => rfl

theorem remove_optimize (pass : Pass) (nodes : List Node) :
    remove removal (pass.optimize nodes) = pass.optimize (remove removal nodes) := by
  rw [remove, remove, retain_eq_flatMap, retain_eq_flatMap,
    pass.flatMap_optimize (commutes_retainAt removal pass)]

end Comment

/-- A pass that fuses may run before purging, merging media blocks and removing comments, or after
them. -/
theorem Pass.optimize_anywhere (pass : Pass) (allow : AllowList) (removal : Comment.Removal)
    (nodes : List Node) :
    (Purge.purge allow (pass.optimize nodes)).nodes = pass.optimize (Purge.purge allow nodes).nodes ∧
      Media.normalize (pass.optimize nodes) = pass.optimize (Media.normalize nodes) ∧
      Comment.remove removal (pass.optimize nodes) = pass.optimize (Comment.remove removal nodes) :=
  ⟨Purge.purge_optimize pass allow nodes, Media.normalize_optimize pass nodes,
    Comment.remove_optimize removal pass nodes⟩

end Stylesheet
