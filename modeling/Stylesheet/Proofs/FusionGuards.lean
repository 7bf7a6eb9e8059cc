import Stylesheet.Proofs.Fusion

/-!
# When a family is fused

`Family.fuse?_eq_some` says what is known of a body that was fused.  Here is the other direction: a
body is fused as soon as it can be cut as `Family.Fuses` says.  So the guards of `Family.fuse?` ask for
no more than that, and `Family.fuse?_eq_some_iff` describes fusing without any positions.
-/

namespace Stylesheet

/-! ## Slots of a cut body -/

namespace Slots

/-- Longhands of which none is declared twice are located. -/
theorem exists_locate {body : List Node} {longhands : List String} (hnodup : longhands.Nodup)
    (hcount : ∀ name ∈ longhands, Body.count name body ≤ 1) :
    ∃ slots, locate body longhands = some slots ∧
      slots.positions = longhands.map fun name => Body.find? name body := by
  have hsome : (locate body longhands).isSome = true := by
    rw [locate, if_pos (by simpa using hcount)]
    rfl
  obtain ⟨slots, hslots⟩ := Option.isSome_iff_exists.1 hsome
  exact ⟨slots, hslots, (locate_eq_some hnodup hslots).2⟩

end Slots

/-! ## Guards of a cut body -/

namespace Family

variable {family : Family}

/-- Positions of longhands behind that of a node are those of contributors behind it. -/
theorem contributors_ne_nil_of_lt {body : List Node} {slots : Slots}
    (hcount : ∀ name ∈ family.longhands, Body.count name body ≤ 1)
    (hpositions : slots.positions = family.longhands.map fun name => Body.find? name body)
    {a b : List Node} {node : Node} (hbody : body = a ++ node :: b) {i : Nat}
    (hi : i ∈ slots.indices) (hlt : a.length < i) : family.contributors b ≠ [] := by
  obtain ⟨d, hd, hproperty⟩ := (Slots.mem_indices_iff hcount hpositions).1 hi
  obtain ⟨k, rfl⟩ : ∃ k, i = a.length + (k + 1) := ⟨i - a.length - 1, by omega⟩
  rw [hbody, List.getElem?_append_right (by omega), Nat.add_sub_cancel_left,
    List.getElem?_cons_succ] at hd
  exact List.ne_nil_of_mem (mem_contributors.2 ⟨List.mem_of_getElem? hd, hproperty⟩)

section Cut

variable {body front back : List Node} {anchor s : Declaration} {slots : Slots}
variable (h : family.Fuses body front anchor back s)
variable (hpositions : slots.positions = family.longhands.map fun name => Body.find? name body)

include h

/-- At the position of the cut stands its declaration. -/
theorem Fuses.getElem?_length : body[front.length]? = some (.declaration anchor) := by
  rw [h.split]
  simp

include hpositions

theorem Fuses.length_mem_indices : front.length ∈ slots.indices :=
  (Slots.mem_indices_iff h.once hpositions).2 ⟨anchor, h.getElem?_length, h.anchor_mem⟩

/-- The contributors share the importance of the shorthand. -/
theorem Fuses.sharedImportance?_eq : slots.sharedImportance? body = some s.important := by
  refine Slots.sharedImportance?_eq_some_iff.2 ⟨⟨front.length, h.length_mem_indices hpositions, anchor,
    Body.declarationAt?_eq_some_iff.2 h.getElem?_length⟩, ?_⟩
  intro j hj e he
  obtain ⟨d, hd, hproperty⟩ := (Slots.mem_indices_iff h.once hpositions).1 hj
  rw [Body.declarationAt?_eq_some_iff, hd] at he
  obtain rfl : d = e := Node.declaration.inj (Option.some.inj he)
  exact h.important_eq d (mem_contributors.2 ⟨List.mem_of_getElem? hd, hproperty⟩)

/-- The shorthand is put at the position of the cut. -/
theorem Fuses.anchorIn?_eq : family.anchorIn? slots = some front.length := by
  have hplace := h.takesPlace
  rw [TakesPlace] at hplace
  rw [anchorIn?]
  cases hanchor : family.anchor with
  | none =>
      rw [hanchor] at hplace
      dsimp only at hplace ⊢
      have hmem := h.length_mem_indices hpositions
      obtain ⟨last, hlast⟩ :=
        Option.isSome_iff_exists.1 (List.getLast?_isSome.2 (List.ne_nil_of_mem hmem))
      -- Behind the cut there is no contributor, so none of the positions is larger.
      have hnot : ¬ front.length < last := fun hlt =>
        contributors_ne_nil_of_lt h.once hpositions h.split (List.mem_of_getLast? hlast) hlt hplace
      have hle := Slots.le_of_getLast? hlast hmem
      rw [hlast, Option.some.injEq]
      omega
  | some k =>
      rw [hanchor] at hplace
      dsimp only at hplace ⊢
      rw [Slots.slot?, hpositions, List.getElem?_map, hplace]
      exact (Body.find?_eq_some_iff (h.once _ h.anchor_mem)).2 ⟨anchor, h.getElem?_length, rfl⟩

/-- Nothing interferes. -/
theorem Fuses.hasInterference_eq : slots.hasInterference body family.interferes = false := by
  have hmem := h.length_mem_indices hpositions
  obtain ⟨last, hlast⟩ :=
    Option.isSome_iff_exists.1 (List.getLast?_isSome.2 (List.ne_nil_of_mem hmem))
  rw [Slots.hasInterference, hlast]
  dsimp only
  rw [List.any_eq_false]
  rintro ⟨node, i⟩ hnode
  rw [List.mem_zipIdx_iff_getElem?] at hnode
  obtain ⟨hlt, hget⟩ : i < last ∧ body[i]? = some node := by
    rw [List.getElem?_take] at hnode
    split at hnode
    · next hlt => exact ⟨hlt, hnode⟩
    · cases hnode
  rw [Bool.and_eq_true, not_and, Option.any_eq_true, Bool.not_eq_true', List.contains_eq_mem,
    decide_eq_false_iff_not]
  rintro hi ⟨d, hd, hinterferes⟩
  rw [Node.declaration?_eq_some_iff] at hd
  subst hd
  have hproperty : d.property ∉ family.longhands := fun hlonghand =>
    hi ((Slots.mem_indices_iff h.once hpositions).2 ⟨d, hget, hlonghand⟩)
  obtain ⟨hlength, hgetElem⟩ := List.getElem?_eq_some_iff.1 hget
  have hsplit : body = body.take i ++ .declaration d :: body.drop (i + 1) := by
    rw [← hgetElem, ← List.drop_eq_getElem_cons hlength, List.take_append_drop]
  have hbehind : (body.take i).length < last := by
    rw [List.length_take]
    omega
  -- The last contributor stands behind the declaration.
  exact contributors_ne_nil_of_lt h.once hpositions hsplit (List.mem_of_getLast? hlast) hbehind
    (h.clear hsplit hproperty hinterferes)

end Cut

/-- A body that can be cut is fused. -/
theorem Fuses.fuse?_eq (hnodup : family.longhands.Nodup) {body front back : List Node}
    {anchor s : Declaration} (h : family.Fuses body front anchor back s) :
    family.fuse? body = some (family.rest front ++ .declaration s :: family.rest back) := by
  obtain ⟨slots, hslots, hpositions⟩ := Slots.exists_locate hnodup h.once
  have hvalue : family.compose (slots.values body) = some s.value := by
    rw [Slots.values_eq h.once hpositions]
    exact h.value_eq
  have hexcludes :
      ¬ (body.any fun node => node.declaration?.any fun d => family.excludes d.property) = true := by
    rw [List.any_eq_true]
    rintro ⟨node, hnode, hany⟩
    obtain ⟨d, hd, hexcluded⟩ := (Option.any_eq_true _ _).1 hany
    rw [Node.declaration?_eq_some_iff] at hd
    subst hd
    rw [h.not_excludes d (Body.mem_declarations.2 hnode)] at hexcluded
    cases hexcluded
  have hs : (⟨family.shorthand, s.value, s.important⟩ : Declaration) = s := by
    rw [← h.property_eq]
  rw [fuse?, hslots]
  simp only [Option.bind_eq_bind, Option.bind_some, hvalue, h.sharedImportance?_eq hpositions,
    h.anchorIn?_eq hpositions, h.hasInterference_eq hpositions]
  rw [if_neg hexcludes, hs]
  exact congrArg some (replaceWith_indices h.once hpositions h.split h.anchor_mem s)

/-- A family is fused exactly in the bodies that can be cut at the place of the shorthand, and then
the shorthand takes this place, the longhands go, and all else stays. -/
theorem fuse?_eq_some_iff (hnodup : family.longhands.Nodup) {body fused : List Node} :
    family.fuse? body = some fused ↔
      ∃ front anchor back s, family.Fuses body front anchor back s ∧
        fused = family.rest front ++ .declaration s :: family.rest back := by
  constructor
  · exact fuse?_eq_some hnodup
  · rintro ⟨front, anchor, back, s, h, rfl⟩
    exact h.fuse?_eq hnodup

end Family

end Stylesheet
