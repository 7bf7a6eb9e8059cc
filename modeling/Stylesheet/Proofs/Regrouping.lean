import Mathlib.Data.List.Induction
import Stylesheet.Proofs.ValueLayout

/-!
# Putting the pieces of a value together again

To change a value its components or layers are cut out, changed, and put together with one separator
between neighbours.  If nothing was changed, the same pieces should be found again.

They are, apart from one case.  A space behind a backslash does not separate, so it belongs to the piece
before the next separator, but if it is the last character of the piece it is trimmed.  Then the piece
*dangles*: it ends in a backslash that has nothing behind it to escape, and when the pieces are put
together, this backslash escapes the separator.  So a piece that dangles takes in the next one
(`regroup`).  An open bracket or quote does no harm, since it can only be open in the last piece, and the
last piece may dangle, too, since no separator comes behind it.

`rejoin_pieces` says this of all values, for components and for layers.
-/

namespace Stylesheet.Value

/-! ## Pieces that dangle -/

/-- Does a text end in a backslash that has nothing behind it to escape?  Then the backslashes at its end
are odd in number. -/
def dangles (cs : List Char) : Bool := (cs.reverse.takeWhile (· == '\\')).length % 2 == 1

theorem dangles_concat (cs : List Char) (c : Char) :
    dangles (cs ++ [c]) = (c == '\\' && !dangles cs) := by
  rw [dangles, dangles, List.reverse_append, List.reverse_singleton, List.singleton_append]
  rw [List.takeWhile_cons]
  cases c == '\\' with
  | true =>
      rw [if_pos rfl, List.length_cons, Bool.true_and]
      rcases Nat.mod_two_eq_zero_or_one (cs.reverse.takeWhile (· == '\\')).length with hrun | hrun
      · simp [Nat.add_mod, hrun]
      · simp [Nat.add_mod, hrun]
  | false => rfl

/-- A backslash waits after a backslash that was not escaped, also in quotes. -/
theorem Nesting.escaped_next (s : Nesting) (c : Char) :
    (s.next c).escaped = (c == '\\' && !s.escaped) := by
  obtain ⟨depth, quote, escaped⟩ := s
  rw [Nesting.next]
  cases escaped with
  | true => simp
  | false =>
      cases hc : c == '\\' with
      | true => rfl
      | false =>
          cases quote with
          | some q =>
              dsimp only
              split
              · contradiction
              · split <;> rfl
          | none =>
              simp only [Bool.false_eq_true, if_false, Bool.false_and]
              split
              · rfl
              split
              · rfl
              split
              · rfl
              · rfl

/-- The splitter waits for a character behind a text that dangles. -/
theorem Nesting.escaped_along (cs : List Char) :
    (({} : Nesting).along cs).escaped = dangles cs := by
  induction cs using List.reverseRecOn with
  | nil => rfl
  | append_singleton cs c ih =>
      have hlast : ({} : Nesting).along (cs ++ [c]) = (({} : Nesting).along cs).next c := by
        rw [Nesting.along_append]
        rfl
      rw [hlast, Nesting.escaped_next, ih, dangles_concat]

/-- Where no bracket and no quote is open, only a backslash can be. -/
theorem Nesting.along_eq_of_rests {cs : List Char} (h : (({} : Nesting).along cs).Rests) :
    ({} : Nesting).along cs = { escaped := dangles cs } := by
  have hescaped := Nesting.escaped_along cs
  rcases h.eq with htop | hwaits
  · rw [htop] at hescaped ⊢
    rw [← hescaped]
  · rw [hwaits] at hescaped ⊢
    rw [← hescaped]

/-! ## Pieces that are found again -/

/-- The pieces that are found when pieces are put together: one that dangles takes in the next. -/
def regroup (glue : String) : List String → List String
  | [] => []
  | p :: ps =>
      match regroup glue ps with
      | [] => [p]
      | q :: qs => if dangles p.toList then (p ++ glue ++ q) :: qs else p :: q :: qs

variable (glue : String)

theorem exists_regroup_cons (p : String) (ps : List String) :
    ∃ q qs, regroup glue (p :: ps) = q :: qs := by
  rw [regroup]
  split
  · exact ⟨p, [], rfl⟩
  · split
    · exact ⟨_, _, rfl⟩
    · exact ⟨_, _, rfl⟩

theorem length_regroup_le (ps : List String) : (regroup glue ps).length ≤ ps.length := by
  induction ps with
  | nil => exact Nat.le_refl 0
  | cons p ps ih =>
      rw [regroup, List.length_cons]
      split
      · exact Nat.succ_le_succ (Nat.zero_le _)
      · next q qs hrest =>
          rw [hrest, List.length_cons] at ih
          split
          · rw [List.length_cons]
            omega
          · rw [List.length_cons, List.length_cons]
            omega

/-- All pieces stay when none but the last dangles. -/
theorem regroup_eq_self_iff (ps : List String) :
    regroup glue ps = ps ↔ ∀ p ∈ ps.dropLast, dangles p.toList = false := by
  induction ps with
  | nil => simp [regroup]
  | cons p ps ih =>
      cases ps with
      | nil => simp [regroup]
      | cons p' ps =>
          obtain ⟨q, qs, hrest⟩ := exists_regroup_cons glue p' ps
          have hlength := length_regroup_le glue (p' :: ps)
          rw [hrest] at ih hlength
          rw [regroup, hrest, List.dropLast_cons_cons, List.forall_mem_cons, ← ih]
          cases hp : dangles p.toList with
          | true =>
              -- Two pieces have become one, so there are less.
              refine iff_of_false (fun hsame => ?_) (by simp)
              have hcount := congrArg List.length hsame
              simp only [if_true, List.length_cons] at hcount hlength
              omega
          | false => simp

variable {glue}

/-- Pieces that can be put together are found again up to regrouping. -/
theorem Level.Line.split_join_eq_regroup {level : Level} (hglue : glue.toList = level.glue)
    {ps : List String} (h : level.Line (ps.map String.toList)) :
    level.split (level.join (ps.map String.toList)) = (regroup glue ps).map String.toList := by
  induction ps with
  | nil => rfl
  | cons p ps ih =>
      obtain ⟨hp, hrests, hline⟩ := Level.line_cons_iff.1 h
      cases ps with
      | nil => exact hp.split_eq
      | cons p' ps =>
          have hne : (p' :: ps).map String.toList ≠ [] := by simp
          have hagain := ih hline
          obtain ⟨q, qs, hrest⟩ := exists_regroup_cons glue p' ps
          obtain ⟨c, cs, hjoin, hspace, hseparator⟩ := hline.join_ne_nil hne
          have halong := Nesting.along_eq_of_rests (hrests hne)
          rw [List.map_cons, Level.join_cons hne, regroup, hrest]
          rw [hrest] at hagain
          cases hdangles : dangles p.toList with
          | false =>
              rw [hdangles] at halong
              rw [hp.split_glue halong, hagain]
              rfl
          | true =>
              rw [hdangles] at halong
              obtain ⟨r, rs, hsplit, hall⟩ :=
                hp.split_glue_escaped halong cs hspace hseparator
              rw [hjoin, hsplit] at hagain
              obtain ⟨rfl, rfl⟩ := List.cons.inj hagain
              rw [hjoin, hall, ← hglue]
              simp

theorem components_join_components (value : String) :
    components (Text.join " " (components value)) = regroup " " (components value) := by
  have hline : Level.component.Line ((components value).map String.toList) := by
    rw [map_toList_components]
    exact Level.component.line_split value.toList
  refine List.map_injective_iff.2 (fun a b hab => String.toList_injective hab) ?_
  rw [map_toList_components, toList_join_components]
  exact hline.split_join_eq_regroup rfl

theorem layers_join_layers (value : String) :
    layers (Text.join ", " (layers value)) = regroup ", " (layers value) := by
  have hline : Level.layer.Line ((layers value).map String.toList) := by
    rw [map_toList_layers]
    exact Level.layer.line_split value.toList
  refine List.map_injective_iff.2 (fun a b hab => String.toList_injective hab) ?_
  rw [map_toList_layers, toList_join_layers]
  exact hline.split_join_eq_regroup rfl

/-- When the pieces of a value are put together, those that are found are the same up to regrouping.  They
are the same if, and only if, no piece but the last dangles. -/
theorem rejoin_pieces (value : String) :
    (components (Text.join " " (components value)) = regroup " " (components value) ∧
        (components (Text.join " " (components value)) = components value ↔
          ∀ c ∈ (components value).dropLast, dangles c.toList = false)) ∧
      layers (Text.join ", " (layers value)) = regroup ", " (layers value) ∧
        (layers (Text.join ", " (layers value)) = layers value ↔
          ∀ layer ∈ (layers value).dropLast, dangles layer.toList = false) := by
  rw [components_join_components, layers_join_layers]
  exact ⟨⟨rfl, regroup_eq_self_iff _ _⟩, rfl, regroup_eq_self_iff _ _⟩

-- The space that the backslash escapes is trimmed, and the next space is taken for it.
example :
    components "a\\  b" = ["a\\", "b"] ∧
      components (Text.join " " (components "a\\  b")) = ["a\\ b"] := by decide

end Stylesheet.Value
