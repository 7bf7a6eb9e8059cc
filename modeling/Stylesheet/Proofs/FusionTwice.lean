import Stylesheet.Proofs.PassOrder

/-!
# Fusing again

What is left to fuse where a family has been fused.

* Fusing takes all longhands of its family, so the family itself is not fused again
  (`Family.fuse?_fuse`), and there is one shorthand more (`Family.count_of_fuse?`).
* Whether another family is fused is told by the declarations of what counts for it
  (`Family.fuse?_eq_none_congr`).
* Where what interferes with a family is all that counts for it, the first of these declarations is a
  longhand before fusing (`Family.exists_head_of_fuse?`) and the shorthand after it
  (`Family.exists_head_fused`).  So of families that share what counts at most one can be fused.
-/

namespace Stylesheet

/-! ## Cuts of a body -/

/-- Of two places in a body one is before the other, or they are the same. -/
theorem Body.split_trichotomy {a a' b b' : List Node} {x y : Node}
    (h : a ++ x :: b = a' ++ y :: b') :
    (∃ c, a = a' ++ y :: c ∧ b' = c ++ x :: b) ∨ (a = a' ∧ x = y ∧ b = b') ∨
      ∃ c, a' = a ++ x :: c ∧ b = c ++ y :: b' := by
  rcases List.append_eq_append_iff.1 h with ⟨c, rfl, hc⟩ | ⟨c, rfl, hc⟩
  · cases c with
    | nil =>
        obtain ⟨rfl, rfl⟩ := List.cons.inj hc
        exact .inr (.inl ⟨(List.append_nil a).symm, rfl, rfl⟩)
    | cons z c =>
        obtain ⟨rfl, rfl⟩ := List.cons.inj hc
        exact .inr (.inr ⟨c, rfl, rfl⟩)
  · cases c with
    | nil =>
        obtain ⟨rfl, rfl⟩ := List.cons.inj hc
        exact .inr (.inl ⟨List.append_nil a', rfl, rfl⟩)
    | cons z c =>
        obtain ⟨rfl, rfl⟩ := List.cons.inj hc
        exact .inl ⟨c, rfl, rfl⟩

/-- Two declarations of a property count. -/
theorem Body.two_le_count {property : String} {a b c : List Node} {d e : Declaration}
    (hd : d.property = property) (he : e.property = property) :
    2 ≤ count property (a ++ .declaration d :: (b ++ .declaration e :: c)) := by
  rw [count_eq_length, declared, declarations_append, declarations_declaration, declarations_append,
    declarations_declaration, List.filter_append, List.filter_cons_of_pos (by simp [hd]),
    List.filter_append, List.filter_cons_of_pos (by simp [he])]
  simp only [List.length_append, List.length_cons]
  omega

/-- A declaration of a property that is declared at most once stands in one place. -/
theorem Body.eq_of_split {property : String} {body : List Node} (h : count property body ≤ 1)
    {a a' b b' : List Node} {d d' : Declaration} (hd : d.property = property)
    (hd' : d'.property = property) (hbody : body = a ++ .declaration d :: b)
    (hbody' : body = a' ++ .declaration d' :: b') : a = a' ∧ d = d' ∧ b = b' := by
  rcases split_trichotomy (hbody.symm.trans hbody') with
    ⟨c, rfl, rfl⟩ | ⟨ha, hnode, hb⟩ | ⟨c, rfl, rfl⟩
  · rw [hbody'] at h
    exact absurd h (Nat.not_le.2 (two_le_count hd' hd))
  · exact ⟨ha, Node.declaration.inj hnode, hb⟩
  · rw [hbody] at h
    exact absurd h (Nat.not_le.2 (two_le_count hd hd'))

namespace Family

variable {family : Family} {p : String → Bool} {body : List Node}

/-- Whether a family is fused is told by the declarations of what counts for it. -/
theorem fuse?_eq_none_congr (hnodup : family.longhands.Nodup) (hp : family.Within p)
    {other : List Node} (hsame : Body.concerning p other = Body.concerning p body) :
    family.fuse? other = none ↔ family.fuse? body = none := by
  have hnone : ∀ {a b : List Node}, Body.concerning p b = Body.concerning p a →
      family.fuse? a = none → family.fuse? b = none := by
    intro a b hab ha
    cases hb : family.fuse? b with
    | none => rfl
    | some fused =>
        obtain ⟨front, anchor, back, s, h, -⟩ := fuse?_eq_some hnodup hb
        obtain ⟨front', back', h'⟩ := h.transfer hp hab.symm
        rw [h'.fuse?_eq hnodup] at ha
        cases ha
  exact ⟨hnone hsame.symm, hnone hsame⟩

/-- A family is not fused where none of its longhands is declared. -/
theorem fuse?_eq_none_of_contributors (hnodup : family.longhands.Nodup)
    (h : family.contributors body = []) : family.fuse? body = none := by
  cases hfuse : family.fuse? body with
  | none => rfl
  | some fused =>
      obtain ⟨front, anchor, back, s, hfuses, -⟩ := fuse?_eq_some hnodup hfuse
      have hmem : anchor ∈ family.contributors body :=
        mem_contributors.2 ⟨by simp [hfuses.split], hfuses.anchor_mem⟩
      rw [h] at hmem
      cases hmem

theorem contributors_append (a b : List Node) :
    family.contributors (a ++ b) = family.contributors a ++ family.contributors b := by
  rw [contributors, Body.declarations_append, List.filter_append]
  rfl

theorem contributors_rest (body : List Node) : family.contributors (family.rest body) = [] := by
  rw [contributors, declarations_rest, List.filter_filter, List.filter_eq_nil_iff]
  intro d _
  cases family.longhands.contains d.property with
  | true => exact Bool.false_ne_true
  | false => exact Bool.false_ne_true

/-- Fusing takes all longhands. -/
theorem contributors_of_fuse? (hnodup : family.longhands.Nodup)
    (hshorthand : family.shorthand ∉ family.longhands) {fused : List Node}
    (hfuse : family.fuse? body = some fused) : family.contributors fused = [] := by
  obtain ⟨front, anchor, back, s, h, rfl⟩ := fuse?_eq_some hnodup hfuse
  have hs : family.longhands.contains s.property = false := by
    rw [h.property_eq, List.contains_eq_mem, decide_eq_false hshorthand]
  rw [contributors_append, contributors_rest, List.nil_append, contributors,
    Body.declarations_declaration, List.filter_cons_of_neg (by rw [hs]; exact Bool.false_ne_true)]
  exact contributors_rest back

/-- A family that was tried is not fused when it is tried again. -/
theorem fuse?_fuse (hnodup : family.longhands.Nodup)
    (hshorthand : family.shorthand ∉ family.longhands) (body : List Node) :
    family.fuse? (family.fuse body).1 = none := by
  cases hfuse : family.fuse? body with
  | none => rw [fuse_of_none hfuse, hfuse]
  | some fused =>
      rw [fuse_of_some hfuse]
      exact fuse?_eq_none_of_contributors hnodup (contributors_of_fuse? hnodup hshorthand hfuse)

/-- There is one shorthand more after fusing. -/
theorem count_of_fuse? (hnodup : family.longhands.Nodup)
    (hshorthand : family.shorthand ∉ family.longhands) {fused : List Node}
    (hfuse : family.fuse? body = some fused) :
    Body.count family.shorthand fused = Body.count family.shorthand body + 1 := by
  obtain ⟨front, anchor, back, s, h, rfl⟩ := fuse?_eq_some hnodup hfuse
  have hother : ∀ name ∈ family.longhands, (name == family.shorthand) = false := by
    intro name hname
    rw [beq_eq_false_iff_ne]
    rintro rfl
    exact hshorthand hname
  have hrest : ∀ part, Body.concerning (· == family.shorthand) (family.rest part) =
      Body.concerning (· == family.shorthand) part := concerning_rest hother
  have hlength : (Body.concerning (· == family.shorthand)
      (family.rest front ++ .declaration s :: family.rest back)).length =
        (Body.concerning (· == family.shorthand) body).length + 1 := by
    simp only [h.split, Body.concerning_append, Body.concerning_declaration, hrest, h.property_eq,
      hother _ h.anchor_mem, beq_self_eq_true, if_true, Bool.false_eq_true, if_false,
      List.length_append, List.length_cons]
    omega
  rw [Body.count_eq_length, Body.count_eq_length]
  exact hlength

/-- Where a family is fused, the first declaration of what counts is one of a longhand. -/
theorem exists_head_of_fuse? (hnodup : family.longhands.Nodup) (hp : family.Within p)
    (hinterferes : ∀ name, p name = true → family.interferes name = true) {fused : List Node}
    (hfuse : family.fuse? body = some fused) :
    ∃ first others, Body.concerning p body = first :: others ∧
      first.property ∈ family.longhands := by
  obtain ⟨front, anchor, back, s, h, -⟩ := fuse?_eq_some hnodup hfuse
  cases hbody : Body.concerning p body with
  | nil =>
      have hmem : anchor ∈ Body.concerning p body :=
        Body.mem_concerning.2
          ⟨Body.mem_declarations.2 (by simp [h.split]), hp.longhands _ h.anchor_mem⟩
      rw [hbody] at hmem
      cases hmem
  | cons first others =>
      refine ⟨first, others, rfl, ?_⟩
      by_contra hnot
      have hfirst : p first.property = true :=
        (Body.mem_concerning.1 (hbody ▸ List.mem_cons_self)).2
      rw [fuse?_eq_none_of_concerning hnodup hp.longhands hbody hnot (hinterferes _ hfirst)] at hfuse
      cases hfuse

/-- After fusing, the first declaration of what counts is the shorthand. -/
theorem exists_head_fused (hnodup : family.longhands.Nodup) (hp : family.Within p)
    (hinterferes : ∀ name, p name = true → family.interferes name = true) {fused : List Node}
    (hfuse : family.fuse? body = some fused) :
    ∃ first others, Body.concerning p fused = first :: others ∧
      first.property = family.shorthand := by
  obtain ⟨front, anchor, back, s, h, rfl⟩ := fuse?_eq_some hnodup hfuse
  have hfront : Body.concerning p (family.rest front) = [] := by
    rw [Body.concerning, declarations_rest, List.filter_filter, List.filter_eq_nil_iff]
    intro d hd
    rw [Bool.and_eq_true, Bool.not_eq_true', List.contains_eq_mem, decide_eq_false_iff_not]
    rintro ⟨hpd, hnot⟩
    have hclear := h.front_clear (Body.mem_declarations.1 hd) hnot
    rw [hinterferes _ hpd] at hclear
    cases hclear
  have hs : p s.property = true := by rw [h.property_eq, hp.shorthand]
  refine ⟨s, Body.concerning p (family.rest back), ?_, h.property_eq⟩
  rw [Body.concerning_append, hfront, Body.concerning_declaration, if_pos hs, List.nil_append]

end Family

/-! ## Trees -/

namespace Node

/-- A tree with bodies that stay as they are stays as it is. -/
theorem mapBodies_eq_self {f : List Node → List Node} {nodes : List Node}
    (h : ∀ body ∈ bodies nodes, f body = body) : mapBodies f nodes = nodes := by
  have hlist : ∀ nodes : List Node,
      (∀ n ∈ nodes, (∀ body ∈ bodiesAt n, f body = body) → mapBodiesAt f n = n) →
      (∀ body ∈ bodies nodes, f body = body) → mapBodies f nodes = nodes := by
    intro nodes hnodes hbodies
    induction nodes with
    | nil => rfl
    | cons n nodes ih =>
        obtain ⟨hn, hnodes⟩ := List.forall_mem_cons.1 hnodes
        obtain ⟨hat, hbodies⟩ := List.forall_mem_append.1 hbodies
        rw [mapBodies, hn hat, ih hnodes hbodies]
  have hnode : ∀ n : Node, (∀ body ∈ bodiesAt n, f body = body) → mapBodiesAt f n = n := by
    intro n
    induction n using Node.inductionOn with
    | layer name children ih => exact fun h => congrArg (Node.layer name) (hlist children ih h)
    | media condition children ih =>
        exact fun h => congrArg (Node.media condition) (hlist children ih h)
    | atRule name params children ih =>
        exact fun h => congrArg (Node.atRule name params) (hlist children ih h)
    | rule selector children ih =>
        intro h
        obtain ⟨hbody, hinner⟩ := List.forall_mem_cons.1 h
        rw [mapBodiesAt, hlist children ih hinner, hbody]
    | declaration | comment | statement => exact fun _ => rfl
  exact hlist nodes (fun n _ => hnode n) h

end Node

end Stylesheet
