import Stylesheet.Proofs.PlainWord
import Stylesheet.Proofs.ShortForm

/-!
# Positions

What comes of the positions in a value when their keywords become percentages.

A value that was normalized is in short form, unless it has backslashes: its layers and their components
are found again, and every run of keywords that is left in them stands.  So normalizing it again changes
nothing (`normalizePosition_normalizePosition`).

A position of two components should have two components afterwards.  A keyword alone stands for a pair of
percentages, and so a keyword next to another component becomes a pair unless the other component is
an offset.  Offsets are told by their first characters.  A component that is no keyword and does not start
like an offset may still be one, such as `min(1px, 2px)`, and then the keyword next to it *widens*
(`Widens`): the position has three components afterwards.
`length_components_normalizePosition_iff` says that this is the only way to get another number, apart from
a first component that ends in a backslash and makes one component of itself and the next.
-/

namespace Stylesheet.Background

open Stylesheet.Value

/-! ## Positions in short form -/

theorem rewrites_position : rewrites "background-position" ≠ [] := by decide

theorem normalizePosition_eq_self_iff {value : String} :
    normalizePosition value = value ↔ IsShort "background-position" value :=
  normalizeValue_eq_self_iff rewrites_position

theorem isShort_normalizePosition {value : String} (hplain : '\\' ∉ value.toList) :
    IsShort "background-position" (normalizePosition value) :=
  (isShort_normalizeValue_iff rewrites_position hplain).2
    fun hproperty => absurd rfl hproperty

/-- Normalizing is done once: the value has the layers that were made, every run of keywords in them
stands, and nothing changes when it is normalized again. -/
theorem normalizePosition_normalizePosition {value : String} (hplain : '\\' ∉ value.toList) :
    normalizePosition (normalizePosition value) = normalizePosition value ∧
      layers (normalizePosition value) = (layers value).map normalizeLayer ∧
      ∀ layer ∈ layers value,
        components (normalizeLayer layer) = normalizeFrom none [] (components layer) ∧
          RunsStand none (components (normalizeLayer layer)) := by
  have hshort := isShort_normalizePosition hplain
  have hshortens := shortens_normalizeFrom none []
  have hone : ∀ rewrite ∈ [normalizeFrom none []], ∀ ws, Shortens ws (rewrite ws) :=
    List.forall_mem_singleton.2 hshortens
  have hlayers : layers (normalizePosition value) = (layers value).map normalizeLayer :=
    layers_mapLayers hone hplain
  refine ⟨normalizePosition_eq_self_iff.2 hshort, hlayers, fun layer hlayer => ⟨?_, ?_⟩⟩
  · exact components_rewriteLayer hshortens (isPiece_of_mem_layers hlayer)
      (plain_of_mem_layers hplain hlayer)
  · refine hshort.positions (by decide) _ ?_
    rw [hlayers]
    exact List.mem_map_of_mem hlayer

/-- The last layer leaves a quote open, and there is a comma in it. -/
theorem normalizePosition_normalizePosition_open :
    '\\' ∉ "TOP right, left 10px top,, bottom) 'a, left".toList ∧
      normalizePosition (normalizePosition "TOP right, left 10px top,, bottom) 'a, left") =
        "100% 0%, left 10px top, bottom) 'a, left" := by
  have hplain : '\\' ∉ "TOP right, left 10px top,, bottom) 'a, left".toList := by decide
  exact ⟨hplain, (normalizePosition_normalizePosition hplain).1.trans (by decide)⟩

/-! ## Two components -/

/-- A keyword becomes a pair of percentages although it is next to another component. -/
def Widens (keyword other : String) : Prop :=
  (keyword? keyword).isSome = true ∧ keyword? other = none ∧ isOffset other = false

instance (keyword other : String) : Decidable (Widens keyword other) :=
  inferInstanceAs (Decidable (_ ∧ _ ∧ _))

section Widens

variable {v w : String}

theorem not_widens_of_not_keyword (h : keyword? w = none) : ¬ Widens w v := by
  rintro ⟨hkeyword, -⟩
  rw [h] at hkeyword
  cases hkeyword

theorem not_widens_of_keyword (h : (keyword? w).isSome = true) : ¬ Widens v w := by
  rintro ⟨-, hnone, -⟩
  rw [hnone] at h
  cases h

theorem not_widens_of_isOffset (h : isOffset w = true) : ¬ Widens v w := by
  rintro ⟨-, -, hfree⟩
  rw [h] at hfree
  cases hfree

end Widens

theorem lowercase_of_keyword? {w : String} (h : (keyword? w).isSome = true) :
    Text.lowercase w ∈ ["left", "right", "top", "bottom", "center"] := by
  unfold keyword? at h
  split at h
  · next hw => simp [hw]
  · next hw => simp [hw]
  · next hw => simp [hw]
  · next hw => simp [hw]
  · next hw => simp [hw]
  · cases h

theorem closed_of_keyword? {w : String} (h : (keyword? w).isSome = true) : Closed w := by
  have hwords : ["left", "right", "top", "bottom", "center"].all
      (fun word => word.toList.all fun c => !isMark c) = true := by decide
  have hword := List.all_eq_true.1 hwords _ (lowercase_of_keyword? h)
  exact closed_of_lowercase rfl (Text.class_eq_false_of_all hword)

theorem length_of_keywordPosition? {run percentages : List String}
    (h : keywordPosition? run = some percentages) : percentages.length = 2 := by
  unfold keywordPosition? at h
  split at h
  · obtain ⟨⟨percent, axis⟩, -, h⟩ := Option.bind_eq_some_iff.1 h
    cases axis with
    | horizontal | vertical | either => cases h; rfl
  · obtain ⟨⟨percent, axis⟩, -, h⟩ := Option.bind_eq_some_iff.1 h
    obtain ⟨⟨percent', axis'⟩, -, h⟩ := Option.bind_eq_some_iff.1 h
    cases axis with
    | horizontal | vertical | either =>
        cases axis' with
        | horizontal | vertical | either => cases h <;> rfl
  · cases h

/-- The percentages of a position are two terms. -/
theorem exists_pair_of_keywordPosition? {run percentages : List String}
    (h : keywordPosition? run = some percentages) :
    ∃ x y, percentages = [x, y] ∧ x ∈ terms ∧ y ∈ terms := by
  obtain ⟨x, y, rfl⟩ := List.length_eq_two.1 (length_of_keywordPosition? h)
  obtain ⟨-, hterms, -⟩ := terms_of_keywordPosition? h
  exact ⟨x, y, rfl, hterms x (by simp), hterms y (by simp)⟩

/-- A keyword alone is a position. -/
theorem exists_keywordPosition?_singleton {w : String} (h : (keyword? w).isSome = true) :
    ∃ x y, keywordPosition? [w] = some [x, y] ∧ x ∈ terms ∧ y ∈ terms := by
  obtain ⟨⟨percent, axis⟩, hw⟩ := Option.isSome_iff_exists.1 h
  have hsome : ∃ percentages, keywordPosition? [w] = some percentages := by
    rw [keywordPosition?, hw]
    cases axis with
    | horizontal | vertical | either => exact ⟨_, rfl⟩
  obtain ⟨percentages, hpercentages⟩ := hsome
  obtain ⟨x, y, rfl, hx, hy⟩ := exists_pair_of_keywordPosition? hpercentages
  exact ⟨x, y, hpercentages, hx, hy⟩

/-- Only keywords make a position. -/
theorem keyword?_of_keywordPosition?_pair {a b : String} (h : keywordPosition? [a, b] ≠ none) :
    (keyword? a).isSome = true ∧ (keyword? b).isSome = true := by
  obtain ⟨percentages, h⟩ := Option.ne_none_iff_exists'.1 h
  obtain ⟨position, ha, h⟩ := Option.bind_eq_some_iff.1 h
  obtain ⟨position', hb, -⟩ := Option.bind_eq_some_iff.1 h
  exact ⟨by rw [ha]; rfl, by rw [hb]; rfl⟩

theorem keywordPosition?_pair_eq_none {a b : String} (h : keyword? a = none ∨ keyword? b = none) :
    keywordPosition? [a, b] = none := by
  by_contra hne
  obtain ⟨ha, hb⟩ := keyword?_of_keywordPosition?_pair hne
  rcases h with hnone | hnone
  · rw [hnone] at ha
    cases ha
  · rw [hnone] at hb
    cases hb

/-- In a position no keyword widens. -/
theorem not_widens_of_keywordPosition? {a b : String} {percentages : List String}
    (h : keywordPosition? [a, b] = some percentages) : ¬ Widens a b ∧ ¬ Widens b a := by
  obtain ⟨ha, hb⟩ := keyword?_of_keywordPosition?_pair (by rw [h]; exact Option.some_ne_none _)
  exact ⟨not_widens_of_keyword hb, not_widens_of_keyword ha⟩

/-- What becomes of a layer with the components `a` and `b`. -/
inductive Pair (a b : String) : List String → Prop where
  /-- They stay as they are. -/
  | stays : keywordPosition? [a, b] = none → ¬ Widens a b → ¬ Widens b a → Pair a b [a, b]
  /-- They are a position. -/
  | position {x y : String} : keywordPosition? [a, b] = some [x, y] → x ∈ terms → y ∈ terms →
      Pair a b [x, y]
  /-- The first one widens. -/
  | first {x y : String} : Widens a b → x ∈ terms → y ∈ terms → Pair a b [x, y, b]
  /-- The second one widens. -/
  | second {x y : String} : Widens b a → x ∈ terms → y ∈ terms → Pair a b [a, x, y]

theorem pair_of_not_keyword {a : String} (ha : keyword? a = none) (b : String) :
    Pair a b (normalizeFrom none [] [a, b]) := by
  have hnone := keywordPosition?_pair_eq_none (b := b) (.inl ha)
  rw [normalizeFrom_of_not_keyword ha, normalizeRun_nil, List.nil_append]
  cases hb : keyword? b with
  | none =>
      rw [normalizeFrom_of_not_keyword hb, normalizeRun_nil]
      exact .stays hnone (not_widens_of_not_keyword ha) (not_widens_of_not_keyword hb)
  | some position =>
      have hkeyword : (keyword? b).isSome = true := by rw [hb]; rfl
      obtain ⟨x, y, hpair, hx, hy⟩ := exists_keywordPosition?_singleton hkeyword
      rw [normalizeFrom, if_pos hkeyword, List.nil_append, normalizeFrom, normalizeRun, hpair]
      cases hoffset : isOffset a with
      | true =>
          rw [Option.any_some, hoffset]
          exact .stays hnone (not_widens_of_keyword hkeyword) (not_widens_of_isOffset hoffset)
      | false =>
          rw [Option.any_some, hoffset]
          exact .second ⟨hkeyword, ha, hoffset⟩ hx hy

theorem pair_of_keyword {a : String} (ha : (keyword? a).isSome = true) (b : String) :
    Pair a b (normalizeFrom none [] [a, b]) := by
  rw [normalizeFrom, if_pos ha, List.nil_append]
  cases hb : keyword? b with
  | none =>
      have hnone := keywordPosition?_pair_eq_none (a := a) (.inr hb)
      obtain ⟨x, y, hpair, hx, hy⟩ := exists_keywordPosition?_singleton ha
      rw [normalizeFrom_of_not_keyword hb, normalizeFrom, normalizeRun_nil, normalizeRun, hpair]
      cases hoffset : isOffset b with
      | true =>
          rw [Option.any_some, hoffset]
          exact .stays hnone (not_widens_of_isOffset hoffset) (not_widens_of_not_keyword hb)
      | false =>
          rw [Option.any_some, hoffset]
          exact .first ⟨ha, hb, hoffset⟩ hx hy
  | some position =>
      have hkeyword : (keyword? b).isSome = true := by rw [hb]; rfl
      rw [normalizeFrom, if_pos hkeyword, normalizeFrom, normalizeRun, List.singleton_append]
      cases hpair : keywordPosition? [a, b] with
      | none => exact .stays hpair (not_widens_of_keyword hkeyword) (not_widens_of_keyword ha)
      | some percentages =>
          obtain ⟨x, y, rfl, hx, hy⟩ := exists_pair_of_keywordPosition? hpair
          exact .position hpair hx hy

theorem pair_normalizeFrom (a b : String) : Pair a b (normalizeFrom none [] [a, b]) := by
  cases ha : keyword? a with
  | none => exact pair_of_not_keyword ha b
  | some position => exact pair_of_keyword (by rw [ha]; rfl) b

/-! ## How many components are found -/

/-- A component that leaves something open makes one component of itself and the next. -/
theorem length_components_join_of_not_closed {a : String} {ws : List String} (h : Words (a :: ws))
    (hne : ws ≠ []) (ha : ¬ Closed a) (hclosed : ws.Pairwise fun w _ => Closed w) :
    (components (Text.join " " (a :: ws))).length = ws.length := by
  have hmap : ws.map String.toList ≠ [] := by simpa using hne
  have hline := h.line
  rw [List.map_cons, Level.line_cons_iff] at hline
  obtain ⟨hpiece, hrests, hothers⟩ := hline
  have hescaped : ({} : Nesting).along a.toList = { escaped := true } :=
    (hrests hmap).eq.resolve_left ha
  obtain ⟨c, cs, hjoin, hspace, hseparator⟩ := hothers.join_ne_nil hmap
  obtain ⟨q, qs, hsplit, hall⟩ := hpiece.split_glue_escaped hescaped cs hspace hseparator
  have hagain := hothers.split_join (List.pairwise_map.2 hclosed)
  rw [hjoin, hsplit] at hagain
  calc (components (Text.join " " (a :: ws))).length
      = (Level.component.split (a.toList ++ (Level.component.glue ++ c :: cs))).length := by
        rw [← hjoin, ← Level.join_cons hmap, ← List.map_cons, ← toList_join_components,
          ← map_toList_components, List.length_map]
    _ = (q :: qs).length := by rw [hall]; rfl
    _ = ws.length := by rw [hagain, List.length_map]

namespace Pair

variable {a b : String} {new : List String}

theorem eq_iff (h : Pair a b new) :
    new = [a, b] ↔ keywordPosition? [a, b] = none ∧ ¬ Widens a b ∧ ¬ Widens b a := by
  cases h with
  | stays hnone hfirst hsecond => exact iff_of_true rfl ⟨hnone, hfirst, hsecond⟩
  | position hsome hx hy =>
      refine iff_of_false (fun hsame => ?_) fun hstays => by rw [hsome] at hstays; cases hstays.1
      -- Percentages are no keywords.
      obtain ⟨-, -, hnone, hpos⟩ := terms_of_keywordPosition? hsome
      rw [hsame] at hnone
      omega
  | first hwidens => exact iff_of_false (by simp) fun hstays => hstays.2.1 hwidens
  | second hwidens => exact iff_of_false (by simp) fun hstays => hstays.2.2 hwidens

theorem length_components_iff (h : Pair a b new) (hwords : Words new) :
    (components (Text.join " " new)).length = 2 ↔ (Closed a ↔ ¬ Widens a b ∧ ¬ Widens b a) := by
  have hterm : ∀ t ∈ terms, Closed t := terms_closed
  cases h with
  | stays hnone hfirst hsecond =>
      by_cases ha : Closed a
      · rw [components_join_of_closed hwords (by simp [ha])]
        exact iff_of_true rfl (iff_of_true ha ⟨hfirst, hsecond⟩)
      · rw [length_components_join_of_not_closed hwords (by simp) ha (List.pairwise_singleton _ b)]
        exact iff_of_false (by simp) fun hiff => ha (hiff.2 ⟨hfirst, hsecond⟩)
  | position hsome hx hy =>
      obtain ⟨ha, -⟩ := keyword?_of_keywordPosition?_pair (by rw [hsome]; exact Option.some_ne_none _)
      rw [components_join_of_closed hwords (by simp [hterm _ hx])]
      exact iff_of_true rfl (iff_of_true (closed_of_keyword? ha) (not_widens_of_keywordPosition? hsome))
  | first hwidens hx hy =>
      have ha := closed_of_keyword? hwidens.1
      rw [components_join_of_closed hwords (by simp [hterm _ hx, hterm _ hy])]
      exact iff_of_false (by simp) fun hiff => (hiff.1 ha).1 hwidens
  | second hwidens hx hy =>
      by_cases ha : Closed a
      · rw [components_join_of_closed hwords (by simp [ha, hterm _ hx])]
        exact iff_of_false (by simp) fun hiff => (hiff.1 ha).2 hwidens
      · rw [length_components_join_of_not_closed hwords (by simp) ha (by simp [hterm _ hx])]
        exact iff_of_true rfl (iff_of_false ha fun hstays => hstays.2 hwidens)

end Pair

/-- A layer with two components has two components afterwards if no keyword widens, unless the first
component leaves something open: then it has two if the second component is a keyword that widens.  The
layer stays as it is if no keyword widens and the two are no position. -/
theorem length_components_normalizePosition_iff {value layer a b : String}
    (hlayers : layers value = [layer]) (hcomponents : components layer = [a, b]) :
    ((components (normalizePosition value)).length = 2 ↔
        (Closed a ↔ ¬ Widens a b ∧ ¬ Widens b a)) ∧
      (normalizePosition value = Text.join " " [a, b] ↔
        keywordPosition? [a, b] = none ∧ ¬ Widens a b ∧ ¬ Widens b a) := by
  have hwords : Words [a, b] := by
    rw [← hcomponents]
    exact words_components (isPiece_of_mem_layers (by simp [hlayers] : layer ∈ layers value))
  have hshortens : Shortens [a, b] (normalizeFrom none [] [a, b]) :=
    shortens_normalizeFrom none [] [a, b]
  have hpair := pair_normalizeFrom a b
  have hnew : normalizePosition value = Text.join " " (normalizeFrom none [] [a, b]) := by
    rw [← hcomponents, normalizePosition, mapLayers, hlayers]
    rfl
  have hsame : Text.join " " (normalizeFrom none [] [a, b]) = Text.join " " [a, b] ↔
      normalizeFrom none [] [a, b] = [a, b] := by
    refine ⟨fun hjoin => hshortens.eq_of_letters ?_, congrArg _⟩
    rw [← letters_join_components, hjoin, letters_join_components]
  rw [hnew, hsame]
  exact ⟨hpair.length_components_iff (hwords.shortens hshortens), hpair.eq_iff⟩

/-- The other component is an offset, but does not start like one. -/
theorem length_components_normalizePosition_min :
    layers "left min(1px, 2px)" = ["left min(1px, 2px)"] ∧
      components "left min(1px, 2px)" = ["left", "min(1px, 2px)"] ∧
      (components (normalizePosition "left min(1px, 2px)")).length ≠ 2 := by
  have hlayers : layers "left min(1px, 2px)" = ["left min(1px, 2px)"] := by decide
  have hcomponents : components "left min(1px, 2px)" = ["left", "min(1px, 2px)"] := by decide
  refine ⟨hlayers, hcomponents, fun htwo => ?_⟩
  have hnot := (length_components_normalizePosition_iff hlayers hcomponents).1.1 htwo
  exact absurd hnot (by decide)

end Stylesheet.Background
