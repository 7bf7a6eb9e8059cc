import Mathlib.Data.List.Basic
import Stylesheet.Proofs.FusionGuards

/-!
# Guards and values

Most guards of a family do not look at values: they ask where its longhands are declared, how important
they are, and what else is declared.  So two bodies that differ in values only (`Body.SameButValues`) are
both fused or both not, as soon as the shorthand can carry the values of both or of none
(`Family.fuse?_eq_none_congr_values`).
-/

namespace Stylesheet

/-! ## Bodies without values -/

/-- The declaration without its value. -/
def Declaration.bare (d : Declaration) : Declaration := { d with value := "" }

theorem Declaration.bare_inj {d e : Declaration} (h : d.bare = e.bare) :
    d.property = e.property ∧ d.important = e.important :=
  ⟨(Declaration.mk.inj h).1, (Declaration.mk.inj h).2.2⟩

/-- The node without its value, if it is a declaration. -/
def Node.bare : Node → Node
  | .declaration d => .declaration d.bare
  | node => node

theorem Node.bare_eq_declaration {node : Node} {d : Declaration} (h : node.bare = .declaration d) :
    ∃ e, node = .declaration e ∧ e.bare = d := by
  cases node with
  | declaration e => exact ⟨e, rfl, Node.declaration.inj h⟩
  | layer | media | rule | comment | statement | atRule => cases h

namespace Body

/-- Two bodies differ in the values of declarations at most. -/
def SameButValues (a b : List Node) : Prop := a.map Node.bare = b.map Node.bare

namespace SameButValues

variable {a b : List Node}

theorem symm (h : SameButValues a b) : SameButValues b a := Eq.symm h

/-- Changing values changes nothing else. -/
theorem map {f : Node → Node} (hf : ∀ node, (f node).bare = node.bare) (body : List Node) :
    SameButValues (body.map f) body := by
  rw [SameButValues, List.map_map]
  exact List.map_congr_left fun node _ => hf node

theorem declarations (h : SameButValues a b) :
    (Body.declarations a).map Declaration.bare = (Body.declarations b).map Declaration.bare := by
  have hbare : ∀ body, (Body.declarations body).map Declaration.bare =
      Body.declarations (body.map Node.bare) := by
    intro body
    induction body with
    | nil => rfl
    | cons node body ih =>
        cases node with
        | declaration d => exact congrArg (d.bare :: ·) ih
        | layer | media | rule | comment | statement | atRule => exact ih
  rw [hbare, hbare, h]

/-- The same declarations of some properties are found. -/
theorem filter (h : SameButValues a b) (p : String → Bool) :
    ((Body.declarations a).filter fun d => p d.property).map Declaration.bare =
      ((Body.declarations b).filter fun d => p d.property).map Declaration.bare := by
  have hbare : ∀ ds : List Declaration, (ds.filter fun d => p d.property).map Declaration.bare =
      (ds.map Declaration.bare).filter fun d => p d.property := by
    intro ds
    rw [List.filter_map]
    rfl
  rw [hbare, hbare, h.declarations]

theorem count (h : SameButValues a b) (property : String) :
    Body.count property a = Body.count property b := by
  have hlength := congrArg List.length (h.filter (· == property))
  rw [List.length_map, List.length_map] at hlength
  rw [count_eq_length, count_eq_length]
  exact hlength

/-- Where one body is cut at a declaration, so is the other. -/
theorem exists_split {front back : List Node} {d : Declaration}
    (h : SameButValues a (front ++ .declaration d :: back)) :
    ∃ front' d' back', a = front' ++ .declaration d' :: back' ∧ SameButValues front' front ∧
      d'.bare = d.bare ∧ SameButValues back' back := by
  rw [SameButValues, List.map_append, List.map_cons] at h
  obtain ⟨front', rest, rfl, hfront, hrest⟩ := List.map_eq_append_iff.1 h
  obtain ⟨node, back', rfl, hnode, hback⟩ := List.map_eq_cons_iff.1 hrest
  obtain ⟨d', rfl, hd⟩ := Node.bare_eq_declaration hnode
  exact ⟨front', d', back', rfl, hfront, hd, hback⟩

end SameButValues

end Body

/-! ## Fusing -/

namespace Family

open Body (SameButValues)

variable {family : Family} {body other : List Node}

theorem contributors_eq_nil_iff_of_sameButValues (h : SameButValues other body) :
    family.contributors other = [] ↔ family.contributors body = [] := by
  have hlength := congrArg List.length (h.filter family.longhands.contains)
  rw [List.length_map, List.length_map] at hlength
  rw [← List.length_eq_zero_iff, ← List.length_eq_zero_iff, contributors, contributors, hlength]

/-- The shorthand can carry the values of a body that is fused. -/
theorem compose_ne_none_of_fuse? (hnodup : family.longhands.Nodup) (hfuse : family.fuse? body ≠ none) :
    family.compose (family.longhands.map fun name => Body.value? name body) ≠ none := by
  obtain ⟨fused, hfuse⟩ := Option.ne_none_iff_exists'.1 hfuse
  obtain ⟨front, anchor, back, s, h, -⟩ := fuse?_eq_some hnodup hfuse
  rw [h.value_eq]
  exact Option.some_ne_none _

/-- A body that differs in values only from one that is fused is fused, if the shorthand can carry its
values. -/
theorem fuse?_ne_none_of_sameButValues (hnodup : family.longhands.Nodup)
    (hsame : SameButValues other body) (hfuse : family.fuse? body ≠ none)
    (hvalue : family.compose (family.longhands.map fun name => Body.value? name other) ≠ none) :
    family.fuse? other ≠ none := by
  obtain ⟨fused, hfuse⟩ := Option.ne_none_iff_exists'.1 hfuse
  obtain ⟨value, hvalue⟩ := Option.ne_none_iff_exists'.1 hvalue
  obtain ⟨front, anchor, back, s, h, -⟩ := fuse?_eq_some hnodup hfuse
  obtain ⟨front', anchor', back', hsplit, -, hanchor, hback⟩ := (h.split ▸ hsame).exists_split
  obtain ⟨hproperty, -⟩ := Declaration.bare_inj hanchor
  have hfuses : family.Fuses other front' anchor' back' ⟨family.shorthand, value, s.important⟩ := by
    refine ⟨hsplit, by rw [hproperty]; exact h.anchor_mem, ?_, fun name hname => ?_, rfl, hvalue,
      fun d hd => ?_, fun d hd => ?_, ?_⟩
    · have hplace := h.takesPlace
      rw [TakesPlace] at hplace ⊢
      rwa [hproperty, contributors_eq_nil_iff_of_sameButValues hback]
    · rw [hsame.count name]
      exact h.once name hname
    · have hmem := List.mem_map_of_mem (f := Declaration.bare) hd
      rw [contributors, hsame.filter] at hmem
      obtain ⟨e, he, hbare⟩ := List.mem_map.1 hmem
      rw [← (Declaration.bare_inj hbare).2]
      exact h.important_eq e he
    · have hmem := List.mem_map_of_mem (f := Declaration.bare) hd
      rw [hsame.declarations] at hmem
      obtain ⟨e, he, hbare⟩ := List.mem_map.1 hmem
      rw [← (Declaration.bare_inj hbare).1]
      exact h.not_excludes e he
    · intro a d b hother hd hinterferes
      obtain ⟨a', d', b', hbody, -, hbare, hb⟩ := (hother ▸ hsame.symm).exists_split
      rw [← (Declaration.bare_inj hbare).1] at hd hinterferes
      rw [← contributors_eq_nil_iff_of_sameButValues hb]
      exact h.clear hbody hd hinterferes
  rw [hfuses.fuse?_eq hnodup]
  exact Option.some_ne_none _

/-- Of two bodies that differ in values only both are fused or none, if the shorthand can carry the
values of both or of none. -/
theorem fuse?_eq_none_congr_values (hnodup : family.longhands.Nodup)
    (hsame : SameButValues other body)
    (hvalue : family.compose (family.longhands.map fun name => Body.value? name other) ≠ none ↔
      family.compose (family.longhands.map fun name => Body.value? name body) ≠ none) :
    family.fuse? other = none ↔ family.fuse? body = none := by
  rw [← not_iff_not]
  constructor
  · intro h
    exact fuse?_ne_none_of_sameButValues hnodup hsame.symm h (hvalue.1 (compose_ne_none_of_fuse? hnodup h))
  · intro h
    exact fuse?_ne_none_of_sameButValues hnodup hsame h (hvalue.2 (compose_ne_none_of_fuse? hnodup h))

end Family

end Stylesheet
