import Mathlib.Data.List.Forall2
import Stylesheet.Proofs.Fusion
import Stylesheet.Proofs.SideCascade
import Stylesheet.Shorthand.Background
import Stylesheet.Shorthand.Border
import Stylesheet.Shorthand.Font

/-!
# What a shorthand resets

A shorthand sets more than the longhands that it was made of: it *resets* all others of its family,
and does so with its own importance.  `background` resets the background longhands that it does not
take, `font` those of fonts, and `border` those of the border image.  A declaration of such a longhand
keeps its effect only if it stands behind the shorthand, and if it is important or the shorthand is not.

The first half always holds.  The second does not: the guards look at what stands before the last
contributor, and there only at names.  So important longhands are fused before a normal declaration
that the shorthand resets, and the shorthand outranks it.  `spares_iff_of_optimize` says for the bodies
of all rules of a tree that this is the only way in which a declaration can lose its effect.

All that counts of a body here are the declarations of the shorthand and of what it resets, in their
order (`Body.concerning`).  Making the shorthand puts it at the front of these and does nothing else
(`Family.concerning_fuse?`); and what else is fused in the same body leaves them as they are
(`Family.concerning_fuse`), except for the border image, which is not fused behind a `border`.
-/

namespace Stylesheet

theorem Text.startsWith_trans {a b s : String} (hab : startsWith a b = true)
    (hbs : startsWith b s = true) : startsWith a s = true := by
  rw [startsWith, List.isPrefixOf_iff_prefix] at hab hbs ⊢
  exact hab.trans hbs

/-! ## Bodies at any depth -/

namespace Node

theorem bodies_append (a b : List Node) : bodies (a ++ b) = bodies a ++ bodies b := by
  induction a with
  | nil => rfl
  | cons node a ih => rw [List.cons_append, bodies, bodies, ih, List.append_assoc]

/-- Nodes that hold no bodies may be left out. -/
theorem bodies_filter {p : Node → Bool} (h : ∀ node, p node = false → bodiesAt node = [])
    (nodes : List Node) : bodies (nodes.filter p) = bodies nodes := by
  induction nodes with
  | nil => rfl
  | cons node nodes ih =>
      cases hnode : p node with
      | true => rw [List.filter_cons_of_pos hnode, bodies, bodies, ih]
      | false =>
          rw [List.filter_cons_of_neg (by simp [hnode]), bodies, h node hnode, ih]
          rfl

/-- A change of bodies makes a declaration of nothing that is none. -/
theorem declaration?_mapBodiesAt (f : List Node → List Node) (node : Node) :
    (mapBodiesAt f node).declaration? = node.declaration? := by
  cases node with
  | declaration | layer | media | rule | comment | statement | atRule => rfl

/-- A change of bodies leaves the declarations beside the rules. -/
theorem declarations_mapBodies (f : List Node → List Node) (nodes : List Node) :
    Body.declarations (mapBodies f nodes) = Body.declarations nodes := by
  induction nodes with
  | nil => rfl
  | cons node nodes ih =>
      cases node with
      | declaration d => exact congrArg (d :: ·) ih
      | layer | media | rule | comment | statement | atRule => exact ih

mutual

theorem bodiesAt_mapBodiesAt {f : List Node → List Node}
    (hf : ∀ body, bodies (f body) = bodies body) : ∀ node : Node,
    bodiesAt (mapBodiesAt f node) = (bodiesAt node).map fun body => f (mapBodies f body)
  | .rule _ children => by
      rw [mapBodiesAt, bodiesAt, hf, bodies_mapBodies hf children, bodiesAt, List.map_cons]
  | .layer _ children => bodies_mapBodies hf children
  | .media _ children => bodies_mapBodies hf children
  | .atRule _ _ children => bodies_mapBodies hf children
  | .declaration _ => rfl
  | .comment _ => rfl
  | .statement _ _ => rfl

/-- When a change of a body leaves the rules inside it, it is made in each body after the changes
inside. -/
theorem bodies_mapBodies {f : List Node → List Node}
    (hf : ∀ body, bodies (f body) = bodies body) : ∀ nodes : List Node,
    bodies (mapBodies f nodes) = (bodies nodes).map fun body => f (mapBodies f body)
  | [] => rfl
  | node :: nodes => by
      rw [mapBodies, bodies, bodiesAt_mapBodiesAt hf node, bodies_mapBodies hf nodes, bodies,
        List.map_append]

end

end Node

/-! ## The declarations of some properties -/

namespace Body

/-- The declarations of the properties that `p` names, in their order. -/
def concerning (p : String → Bool) (body : List Node) : List Declaration :=
  (declarations body).filter fun d => p d.property

@[simp] theorem concerning_append (p : String → Bool) (a b : List Node) :
    concerning p (a ++ b) = concerning p a ++ concerning p b := by
  rw [concerning, declarations_append, List.filter_append]
  rfl

theorem concerning_declaration (p : String → Bool) (d : Declaration) (body : List Node) :
    concerning p (.declaration d :: body) =
      if p d.property then d :: concerning p body else concerning p body := by
  rw [concerning, declarations_declaration, List.filter_cons]
  rfl

theorem mem_concerning {p : String → Bool} {body : List Node} {d : Declaration} :
    d ∈ concerning p body ↔ d ∈ declarations body ∧ p d.property = true := List.mem_filter

/-- A property that `p` names can be counted in what `p` names. -/
theorem count_eq_countP_concerning {p : String → Bool} {property : String} (hp : p property = true)
    (body : List Node) :
    count property body = (concerning p body).countP fun d => d.property == property := by
  rw [count_eq_length, declared, concerning, List.countP_filter, ← List.countP_eq_length_filter]
  refine List.countP_congr fun d _ => ?_
  simp only [Bool.and_eq_true, beq_iff_eq]
  constructor
  · rintro rfl
    exact ⟨rfl, hp⟩
  · exact And.left

theorem count_eq_of_concerning {property : String} {a b : List Node}
    (h : concerning (· == property) a = concerning (· == property) b) :
    count property a = count property b := by
  rw [count_eq_length, count_eq_length]
  exact congrArg List.length h

end Body

/-! ## Fusing a family -/

namespace Family

variable {family : Family}

theorem fuse_of_none {body : List Node} (h : family.fuse? body = none) :
    (family.fuse body).1 = body := by
  rw [fuse, h]

theorem fuse_of_some {body fused : List Node} (h : family.fuse? body = some fused) :
    (family.fuse body).1 = fused := by
  rw [fuse, h]

theorem bodies_rest (body : List Node) : Node.bodies (family.rest body) = Node.bodies body := by
  refine Node.bodies_filter (fun node h => ?_) body
  have hnode : family.contributes node = true := by simpa using h
  obtain ⟨d, hd, -⟩ := (Option.any_eq_true _ _).1 hnode
  rw [Node.declaration?_eq_some_iff.1 hd]
  rfl

theorem bodies_fuse (hnodup : family.longhands.Nodup) (body : List Node) :
    Node.bodies (family.fuse body).1 = Node.bodies body := by
  cases hfuse : family.fuse? body with
  | none => rw [fuse_of_none hfuse]
  | some fused =>
      rw [fuse_of_some hfuse]
      obtain ⟨front, anchor, back, s, h, rfl⟩ := fuse?_eq_some hnodup hfuse
      simp only [h.split, Node.bodies_append, Node.bodies, bodies_rest]
      rfl

theorem notMem_longhands {p : String → Bool} (hp : ∀ name ∈ family.longhands, p name = false)
    {name : String} (h : p name = true) : name ∉ family.longhands := by
  intro hmem
  rw [hp name hmem] at h
  cases h

/-- Properties that are no longhands are declared in the rest as before. -/
theorem concerning_rest {p : String → Bool} (hp : ∀ name ∈ family.longhands, p name = false)
    (body : List Node) : Body.concerning p (family.rest body) = Body.concerning p body := by
  rw [Body.concerning, declarations_rest, List.filter_filter, Body.concerning]
  refine List.filter_congr fun d _ => ?_
  cases hd : p d.property with
  | false => rfl
  | true => simp [notMem_longhands hp hd]

/-- `p` names neither the shorthand nor the longhands. -/
def Avoids (family : Family) (p : String → Bool) : Prop :=
  p family.shorthand = false ∧ ∀ name ∈ family.longhands, p name = false

instance (family : Family) (p : String → Bool) : Decidable (family.Avoids p) :=
  inferInstanceAs (Decidable (_ ∧ _))

/-- Fusing a family leaves the declarations of other properties. -/
theorem concerning_fuse (hnodup : family.longhands.Nodup) {p : String → Bool}
    (hp : family.Avoids p) (body : List Node) :
    Body.concerning p (family.fuse body).1 = Body.concerning p body := by
  cases hfuse : family.fuse? body with
  | none => rw [fuse_of_none hfuse]
  | some fused =>
      rw [fuse_of_some hfuse]
      obtain ⟨front, anchor, back, s, h, rfl⟩ := fuse?_eq_some hnodup hfuse
      have hs : p s.property = false := by rw [h.property_eq, hp.1]
      have hanchor : p anchor.property = false := hp.2 _ h.anchor_mem
      simp [h.split, Body.concerning_declaration, concerning_rest hp.2, hs, hanchor]

/-- A shorthand comes before all declarations of properties that interfere with it, and leaves them
as they are.  It has the importance of the longhands. -/
theorem concerning_fuse? (hnodup : family.longhands.Nodup) {p : String → Bool}
    (hshorthand : p family.shorthand = true) (hlonghands : ∀ name ∈ family.longhands, p name = false)
    (hinterferes : ∀ name, p name = true → family.interferes name = true) {body fused : List Node}
    (hfuse : family.fuse? body = some fused) :
    ∃ s : Declaration, s.property = family.shorthand ∧
      Body.concerning p fused = s :: Body.concerning p body ∧
      ((∃ d ∈ Body.declarations body, d.property ∈ family.longhands ∧ d.important = true) ↔
        s.important = true) := by
  obtain ⟨front, anchor, back, s, h, rfl⟩ := fuse?_eq_some hnodup hfuse
  have hfront : Body.concerning p front = [] := by
    rw [Body.concerning, List.filter_eq_nil_iff]
    intro d hd hpd
    have hclear := h.front_clear (Body.mem_declarations.1 hd) (notMem_longhands hlonghands hpd)
    rw [hinterferes _ hpd] at hclear
    cases hclear
  have hs : p s.property = true := by rw [h.property_eq, hshorthand]
  have hanchor : p anchor.property = false := hlonghands _ h.anchor_mem
  refine ⟨s, h.property_eq, ?_, ?_⟩
  · simp [h.split, Body.concerning_declaration, concerning_rest hlonghands, hs, hanchor, hfront]
  · constructor
    · rintro ⟨d, hd, hmem, himportant⟩
      rw [← h.important_eq d (mem_contributors.2 ⟨Body.mem_declarations.1 hd, hmem⟩), himportant]
    · intro himportant
      have hmem : .declaration anchor ∈ body := by simp [h.split]
      refine ⟨anchor, Body.mem_declarations.2 hmem, h.anchor_mem, ?_⟩
      rw [h.important_eq anchor (mem_contributors.2 ⟨hmem, h.anchor_mem⟩), himportant]

/-- A family is not fused behind a declaration that interferes. -/
theorem fuse?_eq_none_of_concerning (hnodup : family.longhands.Nodup) {p : String → Bool}
    (hlonghands : ∀ name ∈ family.longhands, p name = true) {body : List Node} {s : Declaration}
    {others : List Declaration} (hbody : Body.concerning p body = s :: others)
    (hs : s.property ∉ family.longhands) (hinterferes : family.interferes s.property = true) :
    family.fuse? body = none := by
  cases hfuse : family.fuse? body with
  | none => rfl
  | some fused =>
      obtain ⟨front, anchor, back, t, h, rfl⟩ := fuse?_eq_some hnodup hfuse
      have hanchor : p anchor.property = true := hlonghands _ h.anchor_mem
      -- The first declaration that `p` names is in the front, or it is the anchor.
      cases hfront : Body.concerning p front with
      | nil =>
          rw [h.split, Body.concerning_append, hfront, Body.concerning_declaration,
            if_pos hanchor] at hbody
          obtain rfl : anchor = s := (List.cons.inj hbody).1
          exact absurd h.anchor_mem hs
      | cons d ds =>
          rw [h.split, Body.concerning_append, hfront] at hbody
          obtain rfl : d = s := (List.cons.inj hbody).1
          have hmem : d ∈ Body.concerning p front := by simp [hfront]
          have hclear := h.front_clear (Body.mem_declarations.1 (Body.mem_concerning.1 hmem).1) hs
          rw [hinterferes] at hclear
          cases hclear

end Family

theorem Border.bodies_fuseSides (body : List Node) (sides : List String) :
    Node.bodies (fuseSides body sides).1 = Node.bodies body := by
  induction sides generalizing body with
  | nil => rfl
  | cons direction sides ih =>
      rw [fuseSides, ← Family.bodies_fuse (nodup_side direction) body]
      exact ih _

theorem Border.nodup_image : Border.image.longhands.Nodup := by decide

theorem Border.nodup_radius : Border.radius.longhands.Nodup := by decide

/-! ## The three passes -/

/-- The passes that make shorthands which reset longhands. -/
inductive Pass where
  /-- Makes `background`. -/
  | background
  /-- Makes `font`. -/
  | font
  /-- Makes `border`, and other shorthands that reset nothing. -/
  | border
deriving DecidableEq, Repr

namespace Pass

/-- The shorthand that resets longhands, with the longhands it is made of. -/
def family : Pass → Family
  | .background => Background.family
  | .font => Font.family
  | .border => Border.side ""

/-- The longhands that the shorthand resets and is not made of. -/
def resets : Pass → String → Bool
  | .background, name => Text.startsWith "background-" name && !Background.longhands.contains name
  | .font, name => Text.startsWith "font-" name && !Font.longhands.contains name
  | .border, name => Text.startsWith "border-image-" name

/-- What the pass does to one body. -/
def fuseBody : Pass → List Node → List Node
  | .background, body => (Background.fuseBody body).1
  | .font, body => (Font.fuseBody body).1
  | .border, body => (Border.fuseBody body).1

/-- What the pass does to a tree. -/
def optimize : Pass → List Node → List Node
  | .background => Background.optimize
  | .font => Font.optimize
  | .border => Border.optimize

theorem optimize_eq (pass : Pass) (nodes : List Node) :
    pass.optimize nodes = Node.mapBodies pass.fuseBody nodes := by
  cases pass with
  | background | font | border => rfl

/-- The properties that matter for what is reset. -/
def concerns (pass : Pass) (name : String) : Bool :=
  name == pass.family.shorthand || pass.resets name

theorem nodup_longhands (pass : Pass) : pass.family.longhands.Nodup := by
  cases pass with
  | background => decide
  | font => decide
  | border => exact Border.nodup_side ""

theorem concerns_shorthand (pass : Pass) : pass.concerns pass.family.shorthand = true := by
  rw [concerns, beq_self_eq_true, Bool.true_or]

theorem concerns_of_resets {pass : Pass} {name : String} (h : pass.resets name = true) :
    pass.concerns name = true := by
  rw [concerns, h, Bool.or_true]

theorem not_resets_of_not_concerns {pass : Pass} {name : String} (h : pass.concerns name = false) :
    pass.resets name = false := (Bool.or_eq_false_iff.1 h).2

theorem not_concerns_longhands (pass : Pass) :
    ∀ name ∈ pass.family.longhands, pass.concerns name = false := by
  cases pass with
  | background | font | border => decide

theorem interferes_of_concerns {pass : Pass} {name : String} (h : pass.concerns name = true) :
    pass.family.interferes name = true := by
  rw [concerns, Bool.or_eq_true, beq_iff_eq] at h
  rcases h with rfl | h
  · cases pass with
    | background | font | border => decide
  · cases pass with
    | background =>
        rw [resets, Bool.and_eq_true] at h
        exact Text.startsWith_trans (by decide) h.1
    | font =>
        rw [resets, Bool.and_eq_true] at h
        exact Text.startsWith_trans (by decide) h.1
    | border =>
        have himage : Text.startsWith "border-image" name = true :=
          Text.startsWith_trans (by decide) h
        show (Border.isSideProperty name || Text.startsWith "border-image" name) = true
        rw [himage, Bool.or_true]

/-! ## Bodies after a pass -/

theorem bodies_fuseBody (pass : Pass) (body : List Node) :
    Node.bodies (pass.fuseBody body) = Node.bodies body := by
  cases pass with
  | background =>
      have hnormalize : Node.bodies (body.map Background.normalizeNode) = Node.bodies body := by
        induction body with
        | nil => rfl
        | cons node body ih =>
            cases node with
            | declaration d => exact ih
            | layer | media | rule | comment | statement | atRule =>
                exact congrArg (_ ++ ·) ih
      rw [← hnormalize]
      exact Family.bodies_fuse (nodup_longhands .background) _
  | font => exact Family.bodies_fuse (nodup_longhands .font) body
  | border =>
      rw [fuseBody, Border.fuseBody]
      dsimp only
      rw [Family.bodies_fuse Border.nodup_radius, Family.bodies_fuse Border.nodup_image,
        Border.bodies_fuseSides]

/-- What a pass does to a body in which it makes the shorthand `s`: this comes before all
declarations that matter, and they are those of before. -/
structure Makes (pass : Pass) (old new : List Node) (s : Declaration) : Prop where
  /-- It is the shorthand of the pass. -/
  property_eq : s.property = pass.family.shorthand
  /-- It comes first. -/
  concerning_eq : Body.concerning pass.concerns new = s :: Body.concerning pass.concerns old
  /-- It has the importance of the longhands. -/
  important_iff :
    (∃ d ∈ Body.declarations old, d.property ∈ pass.family.longhands ∧ d.important = true) ↔
      s.important = true

theorem exists_makes (pass : Pass) {body fused : List Node}
    (h : pass.family.fuse? body = some fused) : ∃ s, pass.Makes body fused s := by
  obtain ⟨s, hproperty, hconcerning, himportant⟩ :=
    Family.concerning_fuse? pass.nodup_longhands pass.concerns_shorthand pass.not_concerns_longhands
      (fun _ => interferes_of_concerns) h
  exact ⟨s, hproperty, hconcerning, himportant⟩

end Pass

/-! ### Backgrounds -/

namespace Background

/-- The declaration with its value in short form. -/
def shortened (d : Declaration) : Declaration := { d with value := normalizeValue d.property d.value }

theorem declarations_map_normalizeNode (body : List Node) :
    Body.declarations (body.map normalizeNode) = (Body.declarations body).map shortened := by
  induction body with
  | nil => rfl
  | cons node body ih =>
      cases node with
      | declaration d => exact congrArg (shortened d :: ·) ih
      | layer | media | rule | comment | statement | atRule => exact ih

theorem concerning_map_normalizeNode (p : String → Bool) (body : List Node) :
    Body.concerning p (body.map normalizeNode) = (Body.concerning p body).map shortened := by
  rw [Body.concerning, declarations_map_normalizeNode, List.filter_map]
  rfl

/-- Three properties have values with a short form. -/
theorem shortened_of_notMem {d : Declaration}
    (h : d.property ∉ ["background", "background-repeat", "background-position"]) :
    shortened d = d := by
  have hvalue : normalizeValue d.property d.value = d.value := by
    unfold normalizeValue
    split
    next hproperty => exact absurd (by rw [hproperty]; decide) h
    next hproperty => exact absurd (by rw [hproperty]; decide) h
    next hproperty => exact absurd (by rw [hproperty]; decide) h
    next => rfl
  rw [shortened, hvalue]

theorem shortened_of_resets {d : Declaration} (h : Pass.background.resets d.property = true) :
    shortened d = d := by
  refine shortened_of_notMem fun hmem => ?_
  have hresets : ∀ name ∈ ["background", "background-repeat", "background-position"],
      Pass.background.resets name = false := by decide
  rw [hresets _ hmem] at h
  cases h

/-- Where `background` is made there was none, so nothing that matters had a longer form. -/
theorem concerning_of_fuse? {body fused : List Node}
    (h : family.fuse? (body.map normalizeNode) = some fused) :
    Body.concerning Pass.background.concerns (body.map normalizeNode) =
      Body.concerning Pass.background.concerns body := by
  obtain ⟨front, anchor, back, s, hfuses, rfl⟩ :=
    Family.fuse?_eq_some (Pass.nodup_longhands .background) h
  rw [concerning_map_normalizeNode]
  refine (List.map_congr_left fun d hd => ?_).trans (List.map_id _)
  obtain ⟨hd, hconcerns⟩ := Body.mem_concerning.1 hd
  have hexcludes : (d.property == "background") = false := by
    refine hfuses.not_excludes (shortened d) ?_
    rw [declarations_map_normalizeNode]
    exact List.mem_map_of_mem hd
  refine shortened_of_resets ?_
  rw [Pass.concerns, Bool.or_eq_true] at hconcerns
  exact hconcerns.resolve_left (by simp [Pass.family, family, hexcludes])

theorem count_map_normalizeNode (property : String) (body : List Node) :
    Body.count property (body.map normalizeNode) = Body.count property body := by
  have hlength := congrArg List.length (concerning_map_normalizeNode (· == property) body)
  rw [List.length_map] at hlength
  rw [Body.count_eq_length, Body.count_eq_length]
  exact hlength

end Background

/-! ### Borders -/

namespace Border

theorem concerning_fuseSides {p : String → Bool} {sides : List String}
    (hp : ∀ direction ∈ sides, (side direction).Avoids p) (body : List Node) :
    Body.concerning p (fuseSides body sides).1 = Body.concerning p body := by
  induction sides generalizing body with
  | nil => rfl
  | cons direction sides ih =>
      have hside := Family.concerning_fuse (nodup_side direction) (hp direction List.mem_cons_self) body
      rw [fuseSides, ← hside]
      exact ih (fun d hd => hp d (List.mem_cons_of_mem direction hd)) _

/-- The sides that are tried behind the whole border make no `border` and take nothing that it
resets. -/
theorem avoids_concerns : ∀ direction ∈ directions.tail,
    (side direction).Avoids Pass.border.concerns := by
  decide +kernel

/-- The whole border is tried first. -/
theorem fuseBody_eq (body : List Node) :
    (fuseBody body).1 =
      (radius.fuse (image.fuse (fuseSides ((side "").fuse body).1 directions.tail).1).1).1 := by
  have hcons : directions = "" :: directions.tail := rfl
  rw [fuseBody]
  dsimp only
  conv_lhs => rw [hcons, fuseSides]

/-- Only the whole border makes a `border`. -/
theorem count_fuseBody_of_fuse? {body : List Node} (h : (side "").fuse? body = none) :
    Body.count "border" (fuseBody body).1 = Body.count "border" body := by
  refine Body.count_eq_of_concerning ?_
  rw [fuseBody_eq, Family.fuse_of_none h, Family.concerning_fuse nodup_radius (by decide),
    Family.concerning_fuse nodup_image (by decide), concerning_fuseSides (by decide)]

/-- Behind a `border` that was made, nothing that matters is fused. -/
theorem concerning_fuseBody_of_makes {body fused : List Node} {s : Declaration}
    (h : (side "").fuse? body = some fused) (hs : Pass.border.Makes body fused s) :
    Body.concerning Pass.border.concerns (fuseBody body).1 =
      s :: Body.concerning Pass.border.concerns body := by
  have hproperty : s.property = "border" := hs.property_eq
  have hsides : Body.concerning Pass.border.concerns (fuseSides fused directions.tail).1 =
      s :: Body.concerning Pass.border.concerns body := by
    rw [concerning_fuseSides avoids_concerns, hs.concerning_eq]
  have himage : image.fuse? (fuseSides fused directions.tail).1 = none :=
    Family.fuse?_eq_none_of_concerning nodup_image (by decide) hsides (by rw [hproperty]; decide)
      (by rw [hproperty]; decide)
  rw [fuseBody_eq, Family.fuse_of_some h, Family.concerning_fuse nodup_radius (by decide),
    Family.fuse_of_none himage, hsides]

end Border

namespace Pass

/-- A pass makes one shorthand in a body or none. -/
theorem count_fuseBody_or_makes (pass : Pass) (body : List Node) :
    Body.count pass.family.shorthand (pass.fuseBody body) = Body.count pass.family.shorthand body ∨
      ∃ s, pass.Makes body (pass.fuseBody body) s := by
  cases pass with
  | background =>
      rw [fuseBody, Background.fuseBody]
      cases hfuse : Background.family.fuse? (body.map Background.normalizeNode) with
      | none =>
          rw [Family.fuse_of_none hfuse]
          exact .inl (Background.count_map_normalizeNode _ body)
      | some fused =>
          rw [Family.fuse_of_some hfuse]
          obtain ⟨s, hmakes⟩ := exists_makes .background hfuse
          refine .inr ⟨s, hmakes.property_eq, ?_, ?_⟩
          · rw [hmakes.concerning_eq, Background.concerning_of_fuse? hfuse]
          · rw [← hmakes.important_iff, Background.declarations_map_normalizeNode]
            simp [Background.shortened]
  | font =>
      rw [fuseBody, Font.fuseBody]
      cases hfuse : Font.family.fuse? body with
      | none =>
          rw [Family.fuse_of_none hfuse]
          exact .inl rfl
      | some fused =>
          rw [Family.fuse_of_some hfuse]
          exact .inr (exists_makes .font hfuse)
  | border =>
      cases hfuse : (Border.side "").fuse? body with
      | none => exact .inl (Border.count_fuseBody_of_fuse? hfuse)
      | some fused =>
          obtain ⟨s, hmakes⟩ := exists_makes .border hfuse
          exact .inr ⟨s, hmakes.property_eq, Border.concerning_fuseBody_of_makes hfuse hmakes,
            hmakes.important_iff⟩

/-! ## What is overridden -/

/-- A pass has made the shorthand `s` in a body, and it stands between other declarations, as the first
one of its name. -/
structure Creates (pass : Pass) (old new : List Node) (before : List Declaration) (s : Declaration)
    (after : List Declaration) : Prop where
  /-- Its place among the declarations. -/
  declarations_eq : Body.declarations new = before ++ s :: after
  /-- It is the shorthand of the pass. -/
  property_eq : s.property = pass.family.shorthand
  /-- No other one stands before it. -/
  first : ∀ d ∈ before, d.property ≠ pass.family.shorthand
  /-- There was one less. -/
  count_eq : Body.count pass.family.shorthand new = Body.count pass.family.shorthand old + 1

/-- No declaration of what the shorthand resets is overridden by it: each stands behind it, and not a
normal one behind an important shorthand. -/
def Spares (pass : Pass) (before : List Declaration) (s : Declaration) (after : List Declaration) :
    Prop :=
  ∀ d ∈ before ++ after, pass.resets d.property = true →
    d ∉ before ∧ ¬(s.important = true ∧ d.important = false)

/-- A body declares an important longhand that the shorthand takes, and a normal one that it
resets. -/
def Outranks (pass : Pass) (body : List Node) : Prop :=
  (∃ d ∈ Body.declarations body, d.property ∈ pass.family.longhands ∧ d.important = true) ∧
    ∃ d ∈ Body.declarations body, pass.resets d.property = true ∧ d.important = false

/-- Of the body before, only the declarations count. -/
theorem Makes.of_declarations_eq {pass : Pass} {old old' new : List Node} {s : Declaration}
    (h : pass.Makes old new s) (hold : Body.declarations old = Body.declarations old') :
    pass.Makes old' new s := by
  refine ⟨h.property_eq, ?_, ?_⟩
  · rw [h.concerning_eq, Body.concerning, hold]
    rfl
  · rw [← hold]
    exact h.important_iff

/-- Where a shorthand was made. -/
theorem Makes.exists_creates {pass : Pass} {old new : List Node} {s : Declaration}
    (h : pass.Makes old new s) :
    ∃ before after, pass.Creates old new before s after ∧
      (∀ d ∈ before, pass.concerns d.property = false) ∧
      after.filter (fun d => pass.concerns d.property) = Body.concerning pass.concerns old := by
  obtain ⟨before, after, hdeclarations, hbefore, -, hafter⟩ :=
    List.filter_eq_cons_iff.1 h.concerning_eq
  have hclear : ∀ d ∈ before, pass.concerns d.property = false := by
    intro d hd
    exact Bool.eq_false_iff.2 (hbefore d hd)
  refine ⟨before, after, ⟨hdeclarations, h.property_eq, ?_, ?_⟩, hclear, hafter⟩
  · intro d hd hproperty
    have hfalse := hclear d hd
    rw [hproperty, concerns_shorthand] at hfalse
    cases hfalse
  · rw [Body.count_eq_countP_concerning pass.concerns_shorthand, h.concerning_eq,
      List.countP_cons_of_pos (by simp [h.property_eq]),
      ← Body.count_eq_countP_concerning pass.concerns_shorthand]

/-- When all that matters stands behind the shorthand and is what the body had before, it can be told
from that body whether something is overridden. -/
theorem Makes.spares_iff {pass : Pass} {old new : List Node} {s : Declaration}
    (h : pass.Makes old new s) {before after : List Declaration}
    (hbefore : ∀ d ∈ before, pass.concerns d.property = false)
    (hafter : after.filter (fun d => pass.concerns d.property) =
      Body.concerning pass.concerns old) :
    pass.Spares before s after ↔ ¬ pass.Outranks old := by
  have hnot : ∀ d, pass.resets d.property = true → d ∉ before := by
    intro d hresets hd
    rw [not_resets_of_not_concerns (hbefore d hd)] at hresets
    cases hresets
  have hmem : ∀ d, pass.resets d.property = true →
      (d ∈ before ++ after ↔ d ∈ Body.declarations old) := by
    intro d hresets
    have hconcerns := concerns_of_resets hresets
    calc d ∈ before ++ after
        ↔ d ∈ after.filter fun d => pass.concerns d.property := by
          simp [hnot d hresets, hconcerns]
      _ ↔ d ∈ Body.declarations old := by
          rw [hafter, Body.mem_concerning, and_iff_left hconcerns]
  constructor
  · rintro hspares ⟨hlonghand, d, hd, hresets, hnormal⟩
    have hd' := (hmem d hresets).2 hd
    exact (hspares d hd' hresets).2 ⟨h.important_iff.1 hlonghand, hnormal⟩
  · intro houtranks d hd hresets
    refine ⟨hnot d hresets, ?_⟩
    rintro ⟨himportant, hnormal⟩
    exact houtranks ⟨h.important_iff.2 himportant, d, (hmem d hresets).1 hd, hresets, hnormal⟩

/-- In every rule body of a tree a pass makes no shorthand, or one behind which all longhands stand
that it resets; and then one of these is overridden exactly if it is normal where the longhands that
were fused are important. -/
theorem spares_iff_of_optimize (pass : Pass) (nodes : List Node) :
    List.Forall₂
      (fun old new =>
        Body.count pass.family.shorthand new = Body.count pass.family.shorthand old ∨
          ∃ before s after, pass.Creates old new before s after ∧
            (∀ d ∈ before, pass.resets d.property = false) ∧
            (pass.Spares before s after ↔ ¬ pass.Outranks old))
      (Node.bodies nodes) (Node.bodies (pass.optimize nodes)) := by
  rw [optimize_eq, Node.bodies_mapBodies pass.bodies_fuseBody, List.forall₂_map_right_iff,
    List.forall₂_same]
  intro body _
  -- The changes inside the body have left its declarations.
  have hinner := Node.declarations_mapBodies pass.fuseBody body
  rcases pass.count_fuseBody_or_makes (Node.mapBodies pass.fuseBody body) with hcount | ⟨s, hinnerMakes⟩
  · left
    rw [hcount, Body.count_eq_length, Body.count_eq_length, Body.declared, hinner]
    rfl
  · right
    have hmakes := hinnerMakes.of_declarations_eq hinner
    obtain ⟨before, after, hcreates, hbefore, hafter⟩ := hmakes.exists_creates
    refine ⟨before, s, after, hcreates, ?_, hmakes.spares_iff hbefore hafter⟩
    intro d hd
    exact not_resets_of_not_concerns (hbefore d hd)

-- The `font` that is made overrides the kerning behind it.
example : Pass.font.optimize
    [.rule "a" [.declaration ⟨"font-size", "1px", true⟩, .declaration ⟨"font-family", "x", true⟩,
      .declaration ⟨"font-kerning", "none", false⟩]] =
    [.rule "a" [.declaration ⟨"font", "1px x", true⟩,
      .declaration ⟨"font-kerning", "none", false⟩]] := by
  simp only [Pass.optimize, Font.optimize, Font.fuseBody, Family.fuse, Family.fuse?, Family.anchorIn?,
    Slots.sharedImportance?, Slots.hasInterference, Slots.indices_eq_insertionSort]
  decide +kernel

end Pass

end Stylesheet
