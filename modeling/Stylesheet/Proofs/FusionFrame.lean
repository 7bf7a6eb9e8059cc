import Stylesheet.Proofs.LocalChange

/-!
# What fusing leaves alone

A pass is made of steps, and each step tries to fuse one family in one body.  It does all or nothing:
either the body stays as it is, or the longhands of the family go, the shorthand stands in the slot of
one of them, and all other nodes stay in their order.  `Family.Fuses` says when it is the second, and what
the guards have made sure of.

In a whole tree a pass changes nothing but declarations that stand directly in rules.  The *outline* of
a tree is the tree without these, and no pass changes it (`Pass.outline_optimize`).
-/

namespace Stylesheet

/-! ## Outlines -/

namespace Node

mutual

/-- The node without the declarations that stand directly in a rule. -/
def outlineAt : Node → Node
  | .layer name children => .layer name (outlineIn false children)
  | .media condition children => .media condition (outlineIn false children)
  | .rule selector children => .rule selector (outlineIn true children)
  | .atRule name params children => .atRule name params (outlineIn false children)
  | .declaration d => .declaration d
  | .comment text => .comment text
  | .statement name params => .statement name params

/-- The nodes of a block without the declarations that stand directly in a rule, where the block may be
the body of one. -/
def outlineIn (inRule : Bool) : List Node → List Node
  | [] => []
  | n :: ns =>
      if inRule && n.declaration?.isSome then outlineIn inRule ns
      else outlineAt n :: outlineIn inRule ns

end

/-- The tree without the declarations that stand directly in a rule. -/
def outline (nodes : List Node) : List Node := outlineIn false nodes

theorem outlineIn_append (inRule : Bool) (a b : List Node) :
    outlineIn inRule (a ++ b) = outlineIn inRule a ++ outlineIn inRule b := by
  induction a with
  | nil => rfl
  | cons node a ih =>
      rw [List.cons_append, outlineIn, outlineIn, ih]
      split
      · rfl
      · rfl

theorem outlineIn_declarations (ds : List Declaration) :
    outlineIn true (ds.map .declaration) = [] := by
  induction ds with
  | nil => rfl
  | cons d ds ih => exact ih

/-- Declarations in a rule may be replaced. -/
theorem outlineIn_replace (edit : Declaration → List Declaration) (body : List Node) :
    outlineIn true (Body.replace edit body) = outlineIn true body := by
  induction body with
  | nil => rfl
  | cons node body ih =>
      rw [Body.replace, List.flatMap_cons, outlineIn_append, ← Body.replace, ih]
      cases node with
      | declaration d => rw [Node.replace, outlineIn_declarations]; rfl
      | layer | media | rule | comment | statement | atRule => rfl

mutual

theorem outlineAt_mapBodiesAt {f : List Node → List Node}
    (hf : ∀ body, outlineIn true (f body) = outlineIn true body) : ∀ node : Node,
    outlineAt (mapBodiesAt f node) = outlineAt node
  | .rule selector children => by
      rw [mapBodiesAt, outlineAt, hf, outlineIn_mapBodies hf true children, outlineAt]
  | .layer name children => congrArg (Node.layer name) (outlineIn_mapBodies hf false children)
  | .media condition children => congrArg (Node.media condition) (outlineIn_mapBodies hf false children)
  | .atRule name params children =>
      congrArg (Node.atRule name params) (outlineIn_mapBodies hf false children)
  | .declaration _ => rfl
  | .comment _ => rfl
  | .statement _ _ => rfl

/-- A change of bodies that changes no outline of a body changes no outline of a tree. -/
theorem outlineIn_mapBodies {f : List Node → List Node}
    (hf : ∀ body, outlineIn true (f body) = outlineIn true body) (inRule : Bool) :
    ∀ nodes : List Node, outlineIn inRule (mapBodies f nodes) = outlineIn inRule nodes
  | [] => rfl
  | node :: nodes => by
      rw [mapBodies, outlineIn, outlineIn, declaration?_mapBodiesAt, outlineAt_mapBodiesAt hf node,
        outlineIn_mapBodies hf inRule nodes]

end

end Node

/-- A local change of a body leaves its outline. -/
theorem IsLocal.outlineIn_eq {R : Type} {p : String → Bool} {f : List Node → List Node × R}
    (hf : IsLocal p f) (body : List Node) :
    Node.outlineIn true (f body).1 = Node.outlineIn true body := by
  obtain ⟨edit, r, -, hchange⟩ := hf (Body.concerning p body)
  rw [hchange body rfl]
  exact Node.outlineIn_replace edit body

/-- A pass leaves the outline of a tree. -/
theorem Pass.outline_optimize (pass : Pass) (nodes : List Node) :
    Node.outline (pass.optimize nodes) = Node.outline nodes := by
  rw [optimize_eq]
  refine Node.outlineIn_mapBodies (fun body => ?_) false nodes
  rw [fuseBody_eq_run]
  exact pass.isLocal_run.outlineIn_eq body

/-! ## Steps -/

/-- The steps of the passes. -/
inductive Step where
  /-- Fuses a background. -/
  | background
  /-- Fuses a side of a border. -/
  | side (direction : String)
  /-- Fuses a border image. -/
  | image
  /-- Fuses the radii of a border. -/
  | radius
  /-- Fuses a font. -/
  | font

namespace Step

/-- The family that a step tries to fuse. -/
def family : Step → Family
  | .background => Background.family
  | .side direction => Border.side direction
  | .image => Border.image
  | .radius => Border.radius
  | .font => Font.family

/-- Is the slot of this longhand, with these nodes behind it, the one that the shorthand takes?  It is for
the family of a font, and for the last longhand otherwise. -/
def TakesSlot (step : Step) (anchor : Declaration) (back : List Node) : Prop :=
  match step with
  | .font => anchor.property = "font-family"
  | _ => step.family.contributors back = []

theorem nodup_longhands (step : Step) : step.family.longhands.Nodup := by
  cases step with
  | background => exact Pass.nodup_longhands .background
  | side direction => exact Border.nodup_side direction
  | image => exact Border.nodup_image
  | radius => exact Border.nodup_radius
  | font => exact Pass.nodup_longhands .font

theorem takesSlot_of_takesPlace {step : Step} {anchor : Declaration} {back : List Node}
    (h : step.family.TakesPlace anchor back) : step.TakesSlot anchor back := by
  cases step with
  | background | side | image | radius => exact h
  | font =>
      have hname : some "font-family" = some anchor.property := h
      exact (Option.some.inj hname).symm

end Step

/-- A step leaves a body that cannot be cut as it is; any other is cut, and then the shorthand takes its
slot, the longhands go, all else stays, and nothing that interferes stands before the shorthand.  A pass
changes nothing in a tree but declarations that stand directly in rules. -/
theorem fuse_allOrNothing :
    (∀ (step : Step) (body : List Node),
      (step.family.fuse body = (body, 0) ∧
          ∀ front anchor back s, ¬ step.family.Fuses body front anchor back s) ∨
        ∃ front anchor back s, step.family.Fuses body front anchor back s ∧
          step.TakesSlot anchor back ∧
          step.family.fuse body =
            (step.family.rest front ++ .declaration s :: step.family.rest back, 1) ∧
          ∀ d, .declaration d ∈ step.family.rest front →
            step.family.interferes d.property = false) ∧
      ∀ (pass : Pass) (nodes : List Node),
        Node.outline (pass.optimize nodes) = Node.outline nodes := by
  refine ⟨?_, Pass.outline_optimize⟩
  intro step body
  cases hfuse : step.family.fuse? body with
  | none =>
      refine .inl ⟨by rw [Family.fuse, hfuse], ?_⟩
      intro front anchor back s h
      rw [h.fuse?_eq step.nodup_longhands] at hfuse
      cases hfuse
  | some fused =>
      obtain ⟨front, anchor, back, s, h, rfl⟩ :=
        (Family.fuse?_eq_some_iff step.nodup_longhands).1 hfuse
      refine .inr ⟨front, anchor, back, s, h, Step.takesSlot_of_takesPlace h.takesPlace,
        by rw [Family.fuse, hfuse], ?_⟩
      intro d hd
      obtain ⟨hmem, hother⟩ := List.mem_filter.1 hd
      exact h.front_clear hmem (by simpa [Family.contributes, Node.declaration?] using hother)

end Stylesheet
