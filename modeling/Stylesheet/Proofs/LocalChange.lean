import Mathlib.Data.List.Basic
import Stylesheet.Proofs.FusionGuards
import Stylesheet.Proofs.ResetLonghands

/-!
# Changes that are local to some properties

Fusing works with positions in a body, so all that stands in the body seems to count.  In fact only
the declarations of a few properties do.  A change of bodies is *local* to the properties that `p`
names (`IsLocal`) when it looks at the declarations of these properties alone, replaces each of them
by such declarations, and leaves all other nodes in their places.

What is local keeps out of the way of everything else:

* two changes that are local to different properties commute, and report what they report alone
  (`IsLocal.comm`);
* a local change commutes with whatever keeps declarations and replaces the other nodes
  (`IsLocal.flatMap`);
* local changes one after the other are a local change (`IsLocal.andThen`).

That fusing a family is local comes from `Family.fuse?_eq_some_iff`: the cut that it speaks of can be
told from the declarations of the family, and so can the shorthand (`Family.Fuses.transfer`).  The
three passes are local to properties with different names (`Pass.isLocal_run`).
-/

namespace Stylesheet

/-! ## Replacing declarations -/

/-- The nodes that come in the place of a node when declarations are replaced. -/
def Node.replace (edit : Declaration → List Declaration) : Node → List Node
  | .declaration d => (edit d).map .declaration
  | node => [node]

theorem Node.replace_of_declaration?_eq_none {edit : Declaration → List Declaration} {node : Node}
    (h : node.declaration? = none) : node.replace edit = [node] := by
  cases node with
  | declaration d => cases h
  | layer | media | rule | comment | statement | atRule => rfl

namespace Body

/-- A body in which declarations are replaced. -/
def replace (edit : Declaration → List Declaration) (body : List Node) : List Node :=
  body.flatMap (Node.replace edit)

@[simp] theorem declarations_map_declaration (ds : List Declaration) :
    declarations (ds.map .declaration) = ds := by
  rw [declarations, List.filterMap_map]
  exact List.filterMap_some

theorem declarations_replace (edit : Declaration → List Declaration) (body : List Node) :
    declarations (replace edit body) = (declarations body).flatMap edit := by
  induction body with
  | nil => rfl
  | cons node body ih =>
      rw [replace, List.flatMap_cons, declarations_append]
      cases node with
      | declaration d =>
          rw [Node.replace, declarations_map_declaration, declarations_declaration,
            List.flatMap_cons, ← ih, replace]
      | layer | media | rule | comment | statement | atRule => exact ih

/-- Nothing changes when declarations are replaced by themselves. -/
theorem replace_self (body : List Node) : replace (fun d => [d]) body = body := by
  rw [replace]
  refine (List.flatMap_congr fun node _ => ?_).trans (List.flatMap_singleton' body)
  cases node with
  | declaration | layer | media | rule | comment | statement | atRule => rfl

theorem flatMap_replace_map (edit : Declaration → List Declaration) (ds : List Declaration) :
    (ds.map .declaration).flatMap (Node.replace edit) = (ds.flatMap edit).map .declaration := by
  rw [List.flatMap_map, List.map_flatMap]
  rfl

theorem replace_replace (first second : Declaration → List Declaration) (body : List Node) :
    replace second (replace first body) = replace (fun d => (first d).flatMap second) body := by
  rw [replace, replace, replace, List.flatMap_assoc]
  refine List.flatMap_congr fun node _ => ?_
  cases node with
  | declaration d => exact flatMap_replace_map second (first d)
  | layer | media | rule | comment | statement | atRule => exact List.flatMap_singleton _ _

/-- A declaration among those of some properties stands in the body. -/
theorem exists_split_of_concerning {p : String → Bool} {body : List Node} {d : Declaration}
    {before after : List Declaration} (h : concerning p body = before ++ d :: after) :
    ∃ front back, body = front ++ .declaration d :: back ∧ concerning p front = before ∧
      concerning p back = after := by
  obtain ⟨ds, es, hdeclarations, hbefore, hes⟩ := List.filter_eq_append_iff.1 h
  obtain ⟨fs, after', rfl, hfs, -, hafter⟩ := List.filter_eq_cons_iff.1 hes
  rw [← List.append_assoc] at hdeclarations
  obtain ⟨front, rest, rfl, hfront, hrest⟩ := List.filterMap_eq_append_iff.1 hdeclarations
  obtain ⟨others, node, back, rfl, hothers, hnode, hback⟩ := List.filterMap_eq_cons_iff.1 hrest
  rw [Node.declaration?_eq_some_iff] at hnode
  subst hnode
  refine ⟨front ++ others, back, by rw [List.append_assoc], ?_, by rw [← hafter, ← hback]; rfl⟩
  have hnone : declarations others = [] := List.filterMap_eq_nil_iff.2 hothers
  have hfiltered : fs.filter (fun d => p d.property) = [] := List.filter_eq_nil_iff.2 hfs
  rw [concerning, declarations_append, hnone, List.append_nil, declarations, hfront,
    List.filter_append, hfiltered, List.append_nil, hbefore]

/-- Properties that `p` names can be looked up in what `p` names. -/
theorem declared_eq_filter_concerning {p : String → Bool} {property : String}
    (hp : p property = true) (body : List Node) :
    declared property body = (concerning p body).filter fun d => d.property == property := by
  rw [concerning, List.filter_filter, declared]
  refine List.filter_congr fun d _ => ?_
  cases hd : d.property == property with
  | false => rfl
  | true => rw [beq_iff_eq.1 hd, hp, Bool.and_true]

end Body

/-! ## Local changes -/

/-- Declarations of properties that `p` names are replaced by such declarations, and others are
not replaced. -/
structure Edits (p : String → Bool) (edit : Declaration → List Declaration) : Prop where
  /-- Others stay. -/
  others : ∀ d, p d.property = false → edit d = [d]
  /-- What comes in their place is named as well. -/
  named : ∀ d, p d.property = true → ∀ e ∈ edit d, p e.property = true

namespace Edits

variable {p q : String → Bool} {edit : Declaration → List Declaration}

theorem self (p : String → Bool) : Edits p fun d => [d] := by
  refine ⟨fun _ _ => rfl, ?_⟩
  intro d hd e he
  rw [List.mem_singleton.1 he, hd]

/-- Replacing can be seen on what `q` names when it puts nothing there for other declarations. -/
theorem concerning_replace_eq_flatMap {f : Declaration → List Declaration}
    (hf : ∀ d, (edit d).filter (fun e => q e.property) = if q d.property then f d else [])
    (body : List Node) :
    Body.concerning q (Body.replace edit body) = (Body.concerning q body).flatMap f := by
  rw [Body.concerning, Body.declarations_replace, Body.concerning, List.filter_flatMap]
  induction Body.declarations body with
  | nil => rfl
  | cons d ds ih =>
      rw [List.flatMap_cons, ih, hf, List.filter_cons]
      split
      · rw [List.flatMap_cons]
      · rfl

/-- What `p` names after replacing is what was put in the place of what `p` names. -/
theorem concerning_replace (h : Edits p edit) (body : List Node) :
    Body.concerning p (Body.replace edit body) = (Body.concerning p body).flatMap edit := by
  refine concerning_replace_eq_flatMap (fun d => ?_) body
  cases hd : p d.property with
  | true =>
      rw [if_pos rfl]
      exact List.filter_eq_self.2 (h.named d hd)
  | false => simp [h.others d hd, hd]

/-- What `p` does not name stays. -/
theorem concerning_replace_of_disjoint (h : Edits p edit)
    (hpq : ∀ name, p name = true → q name = false) (body : List Node) :
    Body.concerning q (Body.replace edit body) = Body.concerning q body := by
  rw [concerning_replace_eq_flatMap (f := fun d => [d]) (fun d => ?_), List.flatMap_singleton']
  cases hd : p d.property with
  | true =>
      rw [hpq _ hd, if_neg Bool.false_ne_true, List.filter_eq_nil_iff]
      intro e he
      rw [hpq _ (h.named d hd e he)]
      exact Bool.false_ne_true
  | false => rw [h.others d hd, List.filter_cons, List.filter_nil]

end Edits

/-- What a change makes of a body, and what it reports, is told by the declarations of the properties
that `p` names; and it replaces these and does nothing else. -/
def IsLocal {R : Type} (p : String → Bool) (change : List Node → List Node × R) : Prop :=
  ∀ ds, ∃ edit r, Edits p edit ∧
    ∀ body, Body.concerning p body = ds → change body = (Body.replace edit body, r)

/-- Declarations stay, and what comes in the place of another node is none. -/
structure KeepsDeclarations (h : Node → List Node) : Prop where
  /-- Declarations stay. -/
  declaration : ∀ d, h (.declaration d) = [.declaration d]
  /-- Nothing becomes a declaration. -/
  others : ∀ node : Node, node.declaration? = none → ∀ n ∈ h node, n.declaration? = none

theorem KeepsDeclarations.declarations_flatMap {h : Node → List Node} (hh : KeepsDeclarations h)
    (body : List Node) : Body.declarations (body.flatMap h) = Body.declarations body := by
  induction body with
  | nil => rfl
  | cons node body ih =>
      rw [List.flatMap_cons, Body.declarations_append, ih]
      cases hnode : node.declaration? with
      | none =>
          have hnone : Body.declarations (h node) = [] :=
            List.filterMap_eq_nil_iff.2 (hh.others node hnode)
          rw [hnone, Body.declarations, Body.declarations, List.filterMap_cons_none hnode]
          rfl
      | some d =>
          rw [Node.declaration?_eq_some_iff] at hnode
          rw [hnode, hh.declaration]
          rfl

namespace IsLocal

variable {R S T : Type} {p q : String → Bool}
variable {f : List Node → List Node × R} {g : List Node → List Node × S}

/-- To do nothing is local. -/
theorem unchanged (r : R) : IsLocal p fun body => (body, r) := by
  refine fun _ => ⟨fun d => [d], r, .self p, fun body _ => ?_⟩
  rw [Body.replace_self]

/-- Two changes that are local to the same properties, one after the other, are local to them. -/
theorem andThen (hf : IsLocal p f) (hg : IsLocal p g) (combine : R → S → T) :
    IsLocal p fun body => ((g (f body).1).1, combine (f body).2 (g (f body).1).2) := by
  intro ds
  obtain ⟨edit, r, hedit, hfirst⟩ := hf ds
  obtain ⟨edit', r', hedit', hsecond⟩ := hg (ds.flatMap edit)
  refine ⟨fun d => (edit d).flatMap edit', combine r r', ⟨?_, ?_⟩, ?_⟩
  · intro d hd
    rw [hedit.others d hd, List.flatMap_singleton, hedit'.others d hd]
  · intro d hd e he
    obtain ⟨d', hd', he'⟩ := List.mem_flatMap.1 he
    exact hedit'.named d' (hedit.named d hd d' hd') e he'
  · intro body hbody
    have hnext := hsecond (Body.replace edit body) (by rw [hedit.concerning_replace, hbody])
    dsimp only
    rw [hfirst body hbody]
    dsimp only
    rw [hnext, Body.replace_replace]

/-- Changes that are local to different properties commute, and the report of each does not depend on
the other. -/
theorem comm (hf : IsLocal p f) (hg : IsLocal q g) (hpq : ∀ name, p name = true → q name = false)
    (body : List Node) :
    (f (g body).1).1 = (g (f body).1).1 ∧ (f (g body).1).2 = (f body).2 ∧
      (g (f body).1).2 = (g body).2 := by
  have hqp : ∀ name, q name = true → p name = false := by
    intro name hname
    cases hp : p name with
    | false => rfl
    | true =>
        rw [hpq name hp] at hname
        cases hname
  obtain ⟨edit, r, hedit, hfirst⟩ := hf (Body.concerning p body)
  obtain ⟨edit', r', hedit', hsecond⟩ := hg (Body.concerning q body)
  rw [hsecond body rfl, hfirst body rfl]
  dsimp only
  rw [hfirst _ (hedit'.concerning_replace_of_disjoint hqp body),
    hsecond _ (hedit.concerning_replace_of_disjoint hpq body), Body.replace_replace,
    Body.replace_replace]
  refine ⟨congrArg (Body.replace · body) (funext fun d => ?_), rfl, rfl⟩
  -- At most one of the two replaces a declaration, and the other leaves what comes in its place.
  cases hd : p d.property with
  | true =>
      rw [hedit'.others d (hpq _ hd), List.flatMap_singleton]
      refine ((List.flatMap_congr fun e he => ?_).trans (List.flatMap_singleton' (edit d))).symm
      exact hedit'.others e (hpq _ (hedit.named d hd e he))
  | false =>
      rw [hedit.others d hd, List.flatMap_singleton]
      refine (List.flatMap_congr fun e he => ?_).trans (List.flatMap_singleton' (edit' d))
      cases hq : q d.property with
      | true => exact hedit.others e (hqp _ (hedit'.named d hq e he))
      | false =>
          rw [hedit'.others d hq, List.mem_singleton] at he
          rw [he]
          exact hedit.others d hd

/-- A local change commutes with what keeps declarations. -/
theorem flatMap (hf : IsLocal p f) {h : Node → List Node} (hh : KeepsDeclarations h)
    (body : List Node) : f (body.flatMap h) = ((f body).1.flatMap h, (f body).2) := by
  obtain ⟨edit, r, -, hchange⟩ := hf (Body.concerning p body)
  have hsame : Body.concerning p (body.flatMap h) = Body.concerning p body := by
    rw [Body.concerning, hh.declarations_flatMap]
    rfl
  rw [hchange _ hsame, hchange _ rfl, Prod.mk.injEq]
  refine ⟨?_, rfl⟩
  rw [Body.replace, Body.replace, List.flatMap_assoc, List.flatMap_assoc]
  refine List.flatMap_congr fun node _ => ?_
  cases hnode : node.declaration? with
  | none =>
      rw [Node.replace_of_declaration?_eq_none hnode, List.flatMap_singleton]
      refine (List.flatMap_congr fun n hn => ?_).trans (List.flatMap_singleton' (h node))
      exact Node.replace_of_declaration?_eq_none (hh.others node hnode n hn)
  | some d =>
      rw [Node.declaration?_eq_some_iff] at hnode
      have hkeep : (edit d).flatMap (fun e => h (.declaration e)) =
          (edit d).flatMap fun e => [.declaration e] :=
        List.flatMap_congr fun e _ => hh.declaration e
      rw [hnode, hh.declaration, List.flatMap_singleton, Node.replace, List.flatMap_map, hkeep,
        List.map_eq_flatMap]

end IsLocal

/-! ## Fusing a family is local -/

namespace Family

variable {family : Family} {p : String → Bool}

/-- `p` names all properties that count for a family. -/
structure Within (family : Family) (p : String → Bool) : Prop where
  /-- The shorthand. -/
  shorthand : p family.shorthand = true
  /-- The longhands. -/
  longhands : ∀ name ∈ family.longhands, p name = true
  /-- What interferes. -/
  interferes : ∀ name, family.interferes name = true → p name = true
  /-- What is in the way wherever it stands. -/
  excludes : ∀ name, family.excludes name = true → p name = true

/-- The shorthand comes in the place of one longhand, and the other longhands go. -/
def replacement (family : Family) (place : String) (s d : Declaration) : List Declaration :=
  if d.property = place then [s] else if family.longhands.contains d.property then [] else [d]

theorem contributors_eq_filter_concerning (hp : family.Within p) (body : List Node) :
    family.contributors body =
      (Body.concerning p body).filter fun d => family.longhands.contains d.property := by
  rw [Body.concerning, List.filter_filter, contributors]
  refine List.filter_congr fun d _ => ?_
  cases hd : family.longhands.contains d.property with
  | false => rfl
  | true => rw [hp.longhands _ (List.contains_iff_mem.1 hd), Bool.and_true]

/-- A cut of a body is a cut of every body with the same declarations of what counts. -/
theorem Fuses.transfer (hp : family.Within p) {body other front back : List Node}
    {anchor s : Declaration} (h : family.Fuses body front anchor back s)
    (hsame : Body.concerning p other = Body.concerning p body) :
    ∃ front' back', family.Fuses other front' anchor back' s := by
  have hcontributors : ∀ {a b : List Node}, Body.concerning p a = Body.concerning p b →
      family.contributors a = family.contributors b := by
    intro a b hab
    rw [contributors_eq_filter_concerning hp, contributors_eq_filter_concerning hp, hab]
  have hdeclared : ∀ name ∈ family.longhands,
      Body.declared name other = Body.declared name body := by
    intro name hname
    rw [Body.declared_eq_filter_concerning (hp.longhands name hname),
      Body.declared_eq_filter_concerning (hp.longhands name hname), hsame]
  obtain ⟨front', back', hsplit, -, hback⟩ :
      ∃ front' back', other = front' ++ .declaration anchor :: back' ∧
        Body.concerning p front' = Body.concerning p front ∧
        Body.concerning p back' = Body.concerning p back := by
    refine Body.exists_split_of_concerning ?_
    rw [hsame, h.split, Body.concerning_append, Body.concerning_declaration,
      if_pos (hp.longhands _ h.anchor_mem)]
  refine ⟨front', back', hsplit, h.anchor_mem, ?_, ?_, h.property_eq, ?_, ?_, ?_, ?_⟩
  · have hplace := h.takesPlace
    rw [TakesPlace] at hplace ⊢
    rwa [hcontributors hback]
  · intro name hname
    rw [Body.count_eq_length, hdeclared name hname, ← Body.count_eq_length]
    exact h.once name hname
  · rw [← h.value_eq]
    refine congrArg family.compose (List.map_congr_left fun name hname => ?_)
    rw [Body.value?, Body.value?, hdeclared name hname]
  · rw [hcontributors hsame]
    exact h.important_eq
  · intro d hd
    cases hexcludes : family.excludes d.property with
    | false => rfl
    | true =>
        have hmem : d ∈ Body.concerning p body := by
          rw [← hsame]
          exact Body.mem_concerning.2 ⟨hd, hp.excludes _ hexcludes⟩
        rw [h.not_excludes d (Body.mem_concerning.1 hmem).1] at hexcludes
        cases hexcludes
  · intro a d b hother hd hinterferes
    obtain ⟨a', b', hbody, -, hb⟩ :
        ∃ a' b', body = a' ++ .declaration d :: b' ∧ Body.concerning p a' = Body.concerning p a ∧
          Body.concerning p b' = Body.concerning p b := by
      refine Body.exists_split_of_concerning ?_
      rw [← hsame, hother, Body.concerning_append, Body.concerning_declaration,
        if_pos (hp.interferes _ hinterferes)]
    rw [← hcontributors hb]
    exact h.clear hbody hd hinterferes

/-- Where the place of the shorthand is not declared, the longhands go and nothing else happens. -/
theorem replace_replacement_of_notMem {place : String} (s : Declaration) {body : List Node}
    (h : Body.declared place body = []) :
    Body.replace (family.replacement place s) body = family.rest body := by
  induction body with
  | nil => rfl
  | cons node body ih =>
      rw [Body.replace, List.flatMap_cons]
      cases node with
      | declaration d =>
          rw [Body.declared, Body.declarations_declaration, List.filter_cons] at h
          cases hd : d.property == place with
          | true =>
              rw [hd] at h
              cases h
          | false =>
              rw [hd] at h
              rw [Node.replace, replacement, if_neg (by simpa using hd), rest_declaration, ← ih h]
              cases family.longhands.contains d.property with
              | true => rfl
              | false => rfl
      | layer | media | rule | comment | statement | atRule => exact congrArg (_ :: ·) (ih h)

/-- The body around the shorthand is what comes of replacing declarations. -/
theorem Fuses.replace_eq {body front back : List Node} {anchor s : Declaration}
    (h : family.Fuses body front anchor back s) :
    Body.replace (family.replacement anchor.property s) body =
      family.rest front ++ .declaration s :: family.rest back := by
  have honce := h.once _ h.anchor_mem
  rw [Body.count_eq_length, h.split, Body.declared, Body.declarations_append,
    Body.declarations_declaration, List.filter_append, List.filter_cons_of_pos (by simp),
    List.length_append, List.length_cons] at honce
  have hfront : Body.declared anchor.property front = [] := by
    rw [← List.length_eq_zero_iff, Body.declared]
    omega
  have hback : Body.declared anchor.property back = [] := by
    rw [← List.length_eq_zero_iff, Body.declared]
    omega
  rw [← replace_replacement_of_notMem s hfront, ← replace_replacement_of_notMem s hback, h.split,
    Body.replace, List.flatMap_append, List.flatMap_cons, Node.replace, replacement, if_pos rfl]
  rfl

theorem edits_replacement (hp : family.Within p) {place : String} (hplace : p place = true)
    {s : Declaration} (hs : p s.property = true) : Edits p (family.replacement place s) := by
  constructor
  · intro d hd
    have hne : d.property ≠ place := by
      rintro rfl
      rw [hplace] at hd
      cases hd
    have hnot : ¬ family.longhands.contains d.property = true := by
      intro hmem
      rw [hp.longhands _ (List.contains_iff_mem.1 hmem)] at hd
      cases hd
    rw [replacement, if_neg hne, if_neg hnot]
  · intro d hd e he
    rw [replacement] at he
    split at he
    · rw [List.mem_singleton.1 he, hs]
    · split at he
      · cases he
      · rw [List.mem_singleton.1 he, hd]

/-- Fusing a family is local to what counts for it. -/
theorem isLocal_fuse (hnodup : family.longhands.Nodup) (hp : family.Within p) :
    IsLocal p family.fuse := by
  intro ds
  by_cases hcut : ∃ body front anchor back s, Body.concerning p body = ds ∧
      family.Fuses body front anchor back s
  · obtain ⟨body, front, anchor, back, s, rfl, h⟩ := hcut
    have hs : p s.property = true := by rw [h.property_eq, hp.shorthand]
    refine ⟨family.replacement anchor.property s, 1,
      edits_replacement hp (hp.longhands _ h.anchor_mem) hs, ?_⟩
    intro other hother
    obtain ⟨front', back', h'⟩ := h.transfer hp hother
    rw [fuse, h'.fuse?_eq hnodup, h'.replace_eq]
  · refine ⟨fun d => [d], 0, .self p, ?_⟩
    intro body hbody
    rw [Body.replace_self, fuse]
    cases hfuse : family.fuse? body with
    | none => rfl
    | some fused =>
        obtain ⟨front, anchor, back, s, h, -⟩ := fuse?_eq_some hnodup hfuse
        exact absurd ⟨body, front, anchor, back, s, hbody, h⟩ hcut

end Family

/-! ## The passes are local -/

theorem Text.startsWith_of_startsWith {a b s : String} (ha : startsWith a s = true)
    (hb : startsWith b s = true) : startsWith a b = true ∨ startsWith b a = true := by
  simp only [startsWith, List.isPrefixOf_iff_prefix] at ha hb ⊢
  exact List.prefix_or_prefix_of_prefix ha hb

namespace Pass

/-- How the names of all properties start that count for a pass. -/
def heads : Pass → List String
  | .background => ["background"]
  | .font => ["font", "line-height"]
  | .border => ["border"]

/-- The properties whose names start so. -/
def names (pass : Pass) (name : String) : Bool := pass.heads.any (Text.startsWith · name)

theorem names_of_startsWith {pass : Pass} {head name : String} (hhead : head ∈ pass.heads)
    (h : Text.startsWith head name = true) : pass.names name = true :=
  List.any_eq_true.2 ⟨head, hhead, h⟩

/-- No name starts in the ways of two passes. -/
theorem names_disjoint {pass other : Pass} (h : pass ≠ other) (name : String)
    (hname : pass.names name = true) : other.names name = false := by
  obtain ⟨head, hhead, hstarts⟩ := List.any_eq_true.1 hname
  rw [names, List.any_eq_false]
  intro head' hhead' hstarts'
  have hapart : ∀ a ∈ pass.heads, ∀ b ∈ other.heads,
      Text.startsWith a b = false ∧ Text.startsWith b a = false := by
    cases pass with
    | background | font | border =>
        cases other with
        | background | font | border => first | exact absurd rfl h | decide
  obtain ⟨hnot, hnot'⟩ := hapart head hhead head' hhead'
  rcases Text.startsWith_of_startsWith hstarts hstarts' with heq | heq
  · rw [hnot] at heq
    cases heq
  · rw [hnot'] at heq
    cases heq

end Pass

namespace Background

/-- The short form of a value takes the place of the value, and only background properties have
one. -/
theorem isLocal_normalize :
    IsLocal Pass.background.names fun body => (body.map normalizeNode, ()) := by
  refine fun _ => ⟨fun d => [shortened d], (), ⟨?_, ?_⟩, ?_⟩
  · intro d hd
    rw [shortened_of_notMem fun hmem => ?_]
    have hnames : ∀ name ∈ ["background", "background-repeat", "background-position"],
        Pass.background.names name = true := by decide
    rw [hnames _ hmem] at hd
    cases hd
  · intro d hd e he
    rw [List.mem_singleton.1 he]
    exact hd
  · intro body _
    have hmap : body.map normalizeNode = Body.replace (fun d => [shortened d]) body := by
      rw [List.map_eq_flatMap, Body.replace]
      refine List.flatMap_congr fun node _ => ?_
      cases node with
      | declaration | layer | media | rule | comment | statement | atRule => rfl
    dsimp only
    rw [hmap]

theorem within_family : family.Within Pass.background.names := by
  refine ⟨by decide, by decide, fun _ => Pass.names_of_startsWith List.mem_cons_self, ?_⟩
  intro name h
  rw [beq_iff_eq.1 h]
  decide

theorem isLocal_fuseBody : IsLocal Pass.background.names fuseBody :=
  isLocal_normalize.andThen (Family.isLocal_fuse (Pass.nodup_longhands .background) within_family)
    fun _ n => n

end Background

namespace Border

theorem startsWith_sideName (direction tail : String) :
    Text.startsWith "border" (sideName direction ++ tail) = true := by
  rw [sideName]
  split
  · simp [Text.startsWith]
  · simp [Text.startsWith]

theorem within_side (direction : String) : (side direction).Within Pass.border.names := by
  have hname : ∀ tail, Pass.border.names (sideName direction ++ tail) = true := fun tail =>
    Pass.names_of_startsWith List.mem_cons_self (startsWith_sideName direction tail)
  refine ⟨?_, ?_, ?_, fun _ h => by cases h⟩
  · show Pass.border.names (sideName direction) = true
    simpa using hname ""
  · simp [side, hname]
  · intro name h
    refine Pass.names_of_startsWith List.mem_cons_self ?_
    rcases (Bool.or_eq_true _ _).mp h with h | h
    · simp only [isSideProperty, Bool.and_eq_true] at h
      exact h.1.1.1.1
    · exact Text.startsWith_trans (by decide) ((Bool.and_eq_true _ _).mp h).2

theorem within_image : image.Within Pass.border.names := by
  refine ⟨by decide, by decide, ?_, fun _ h => by cases h⟩
  intro name h
  rcases (Bool.or_eq_true _ _).mp h with h | h
  · rw [beq_iff_eq.1 h]
    decide
  · rw [beq_iff_eq.1 h]
    decide

theorem within_radius : radius.Within Pass.border.names := by
  refine ⟨by decide, by decide, ?_, fun _ h => by cases h⟩
  intro name h
  rw [beq_iff_eq.1 h]
  decide

theorem isLocal_fuseSides (sides : List String) :
    IsLocal Pass.border.names fun body => fuseSides body sides := by
  induction sides with
  | nil => exact .unchanged 0
  | cons direction sides ih =>
      exact (Family.isLocal_fuse (nodup_side direction) (within_side direction)).andThen ih
        fun n m => n + m

theorem isLocal_fuseBody : IsLocal Pass.border.names fuseBody := by
  have hsides := isLocal_fuseSides directions
  -- The sides are not to be looked up one by one.
  generalize hfuseSides : (fun body => fuseSides body directions) = fuseAll at hsides
  have heq : fuseBody = fun body =>
      ((radius.fuse (image.fuse (fuseAll body).1).1).1,
        ⟨(fuseAll body).2, (image.fuse (fuseAll body).1).2,
          (radius.fuse (image.fuse (fuseAll body).1).1).2⟩) := by
    funext body
    rw [← hfuseSides, fuseBody]
  have himage := hsides.andThen (Family.isLocal_fuse nodup_image within_image) Prod.mk
  have hradius := himage.andThen (Family.isLocal_fuse nodup_radius within_radius)
    fun n radii => (⟨n.1, n.2, radii⟩ : Report)
  rw [heq]
  exact hradius

end Border

namespace Font

theorem within_family : family.Within Pass.font.names :=
  ⟨by decide, by decide, fun _ => Pass.names_of_startsWith List.mem_cons_self,
    fun _ h => by cases h⟩

theorem isLocal_fuseBody : IsLocal Pass.font.names fuseBody :=
  Family.isLocal_fuse (Pass.nodup_longhands .font) within_family

end Font

namespace Pass

/-- What a pass reports. -/
def Report : Pass → Type
  | .background => Nat
  | .font => Nat
  | .border => Border.Report

/-- What a pass makes of a body, and what it reports. -/
def run : (pass : Pass) → List Node → List Node × pass.Report
  | .background => Background.fuseBody
  | .font => Font.fuseBody
  | .border => Border.fuseBody

theorem isLocal_run (pass : Pass) : IsLocal pass.names pass.run := by
  cases pass with
  | background => exact Background.isLocal_fuseBody
  | font => exact Font.isLocal_fuseBody
  | border => exact Border.isLocal_fuseBody

theorem fuseBody_eq_run (pass : Pass) (body : List Node) :
    pass.fuseBody body = (pass.run body).1 := by
  cases pass with
  | background | font | border => rfl

end Pass

end Stylesheet
