import Mathlib.Data.List.Basic
import Stylesheet.Proofs.Fusion
import Stylesheet.Proofs.ValueText
import Stylesheet.Shorthand.Border

/-!
# Radii of corners

A value of `border-radius` gives every corner a horizontal and a vertical radius.  The horizontal radii
stand before the slash and the vertical ones behind it; without a slash they are the same.  On each
side there are one to four radii, clockwise from the top left.  A corner without a radius has that of
the corner opposite to it, or else that of the top left.

The shorthand that is made of the four corners has the bottom corners behind the slash.  So it does not
tell the corners apart that are opposite to each other: it gives both the horizontal radius of the one at
the top, and the vertical radius of the one at the bottom.  The main result
`keepsCorners_iff_of_fuse?` says that it keeps the corners exactly when opposite corners are alike.
-/

namespace Stylesheet.Border

open Stylesheet.Value (IsToken Tidy components)

/-! ## What a value says -/

/-- The radii of the four corners on one axis. -/
def corners? : List String → Option (List String)
  | [a] => some [a, a, a, a]
  | [a, b] => some [a, b, a, b]
  | [a, b, c] => some [a, b, c, b]
  | [a, b, c, d] => some [a, b, c, d]
  | _ => none

/-- The horizontal and the vertical radius of each corner, clockwise from the top left. -/
def radii? (value : String) : Option (List (String × String)) :=
  match (components value).splitOn "/" with
  | [both] => do
      let radii ← corners? both
      return radii.zip radii
  | [horizontal, vertical] => do
      let horizontal ← corners? horizontal
      let vertical ← corners? vertical
      return horizontal.zip vertical
  | _ => none

example : radii? "1px 2px 3px" =
    some [("1px", "1px"), ("2px", "2px"), ("3px", "3px"), ("2px", "2px")] := by decide

example : radii? "1px / 2px 3px" =
    some [("1px", "2px"), ("1px", "3px"), ("1px", "2px"), ("1px", "3px")] := by decide

theorem length_splitOn_pos (words : List String) : 0 < (words.splitOn "/").length :=
  List.length_pos_iff.2 (List.splitOn_ne_nil "/" words)

/-- A slash splits. -/
theorem two_le_length_splitOn {words : List String} (h : "/" ∈ words) :
    2 ≤ (words.splitOn "/").length := by
  obtain ⟨a, b, rfl⟩ := List.append_of_mem h
  have ha := length_splitOn_pos a
  have hb := length_splitOn_pos b
  rw [List.splitOn_append_cons_self, List.length_append]
  omega

/-- There is at most one slash in a value of `border-radius`. -/
theorem length_splitOn_le_of_radii? {value : String} (h : radii? value ≠ none) :
    ((components value).splitOn "/").length ≤ 2 := by
  rw [radii?] at h
  split at h
  · next hsplit => simp [hsplit]
  · next hsplit => simp [hsplit]
  · exact absurd rfl h

/-! ## What the shorthand of four corners says -/

/-- The slash is a component of its own. -/
theorem components_composed {topLeft topRight bottomRight bottomLeft : String}
    (h : ∀ radius ∈ [topLeft, topRight, bottomRight, bottomLeft], IsToken radius) :
    components (topLeft ++ " " ++ topRight ++ " / " ++ bottomRight ++ " " ++ bottomLeft) =
      [topLeft, topRight] ++ "/" :: [bottomRight, bottomLeft] := by
  have hslash : IsToken "/" := ⟨by decide, by decide⟩
  have hall : ∀ word ∈ [topLeft, topRight] ++ "/" :: [bottomRight, bottomLeft], IsToken word := by
    simpa [hslash] using h
  have hjoin : topLeft ++ " " ++ topRight ++ " / " ++ bottomRight ++ " " ++ bottomLeft =
      Text.join " " ([topLeft, topRight] ++ "/" :: [bottomRight, bottomLeft]) := by
    rw [← String.toList_inj]
    simp [Text.join]
  rw [hjoin, Value.components_join hall]

section Composed

variable {topLeft topRight bottomRight bottomLeft : String}
variable (h : ∀ radius ∈ [topLeft, topRight, bottomRight, bottomLeft], IsToken radius)

include h

/-- Opposite corners get the same radii. -/
theorem radii?_composed (hslash : "/" ∉ [topLeft, topRight, bottomRight, bottomLeft]) :
    radii? (topLeft ++ " " ++ topRight ++ " / " ++ bottomRight ++ " " ++ bottomLeft) =
      some [(topLeft, bottomRight), (topRight, bottomLeft), (topLeft, bottomRight),
        (topRight, bottomLeft)] := by
  obtain ⟨htop, hbottom⟩ : "/" ∉ [topLeft, topRight] ∧ "/" ∉ [bottomRight, bottomLeft] :=
    not_or.1 fun hmem => hslash (List.mem_append.2 hmem : "/" ∈ [topLeft, topRight] ++ _)
  rw [radii?, components_composed h, List.splitOn_append_cons_self, List.splitOn_eq_singleton htop,
    List.splitOn_eq_singleton hbottom]
  rfl

/-- A radius that is a slash leaves no value. -/
theorem radii?_composed_of_mem (hslash : "/" ∈ [topLeft, topRight, bottomRight, bottomLeft]) :
    radii? (topLeft ++ " " ++ topRight ++ " / " ++ bottomRight ++ " " ++ bottomLeft) = none := by
  by_contra hne
  have hle := length_splitOn_le_of_radii? hne
  rw [components_composed h, List.splitOn_append_cons_self, List.length_append] at hle
  have htop := length_splitOn_pos [topLeft, topRight]
  have hbottom := length_splitOn_pos [bottomRight, bottomLeft]
  have hmem : "/" ∈ [topLeft, topRight] ∨ "/" ∈ [bottomRight, bottomLeft] := List.mem_append.1 hslash
  rcases hmem with hmem | hmem
  · have htwo := two_le_length_splitOn hmem
    omega
  · have htwo := two_le_length_splitOn hmem
    omega

/-- The corners are kept exactly when opposite corners are alike. -/
theorem radii?_composed_eq_iff :
    radii? (topLeft ++ " " ++ topRight ++ " / " ++ bottomRight ++ " " ++ bottomLeft) =
        some ([topLeft, topRight, bottomRight, bottomLeft].map fun radius => (radius, radius)) ↔
      topLeft = bottomRight ∧ topRight = bottomLeft ∧
        "/" ∉ [topLeft, topRight, bottomRight, bottomLeft] := by
  by_cases hslash : "/" ∈ [topLeft, topRight, bottomRight, bottomLeft]
  · rw [radii?_composed_of_mem h hslash]
    exact iff_of_false (by simp) fun hkeeps => hkeeps.2.2 hslash
  · rw [radii?_composed h hslash]
    constructor
    · intro hsame
      simp only [List.map_cons, List.map_nil, Option.some.injEq, List.cons.injEq, Prod.mk.injEq] at hsame
      exact ⟨hsame.1.2.symm, hsame.2.1.2.symm, hslash⟩
    · rintro ⟨rfl, rfl, -⟩
      rfl

end Composed

theorem composeRadius_eq_some {values : List (Option String)} {value : String}
    (h : composeRadius values = some value) :
    ∃ topLeft topRight bottomRight bottomLeft,
      values = [some topLeft, some topRight, some bottomRight, some bottomLeft] ∧
      (∀ radius ∈ [topLeft, topRight, bottomRight, bottomLeft], Value.isSingle radius = true) ∧
      value = topLeft ++ " " ++ topRight ++ " / " ++ bottomRight ++ " " ++ bottomLeft := by
  unfold composeRadius at h
  split at h
  · next topLeft topRight bottomRight bottomLeft =>
      split at h
      · next hall =>
          exact ⟨topLeft, topRight, bottomRight, bottomLeft, rfl, List.all_eq_true.1 hall,
            (Option.some.inj h).symm⟩
      · cases h
  · cases h

/-! ## Corners of a body -/

/-- The radii that a body declares for single corners. -/
def declaredRadii (body : List Node) : List String :=
  radiusLonghands.filterMap fun name => Body.value? name body

/-- The shorthand gives every corner the declared radius, both horizontally and vertically. -/
def KeepsCorners (body : List Node) (s : Declaration) : Prop :=
  radii? s.value = some ((declaredRadii body).map fun radius => (radius, radius))

/-- Where the four corners of a body are fused, the shorthand has the top corners before the slash and the
bottom corners behind it.  So it gives opposite corners the horizontal radius of the one at the top and
the vertical radius of the one at the bottom, and keeps the corners exactly when opposite corners are
alike. -/
theorem keepsCorners_iff_of_fuse? {body fused : List Node} (hfuse : radius.fuse? body = some fused)
    (htidy : ∀ d ∈ radius.contributors body, Tidy d.value) :
    ∃ front anchor back s topLeft topRight bottomRight bottomLeft,
      radius.Fuses body front anchor back s ∧
      fused = radius.rest front ++ .declaration s :: radius.rest back ∧
      declaredRadii body = [topLeft, topRight, bottomRight, bottomLeft] ∧
      s.value = topLeft ++ " " ++ topRight ++ " / " ++ bottomRight ++ " " ++ bottomLeft ∧
      ("/" ∉ declaredRadii body →
        radii? s.value = some [(topLeft, bottomRight), (topRight, bottomLeft),
          (topLeft, bottomRight), (topRight, bottomLeft)]) ∧
      (KeepsCorners body s ↔
        topLeft = bottomRight ∧ topRight = bottomLeft ∧ "/" ∉ declaredRadii body) := by
  obtain ⟨front, anchor, back, s, h, rfl⟩ := Family.fuse?_eq_some (by decide) hfuse
  obtain ⟨topLeft, topRight, bottomRight, bottomLeft, hvalues, hsingle, hvalue⟩ :=
    composeRadius_eq_some h.value_eq
  have hdeclared : declaredRadii body = [topLeft, topRight, bottomRight, bottomLeft] := by
    have hids := congrArg (List.filterMap id) hvalues
    rw [List.filterMap_map] at hids
    exact hids
  have htoken : ∀ radius ∈ declaredRadii body, IsToken radius := by
    intro value hmem
    obtain ⟨name, hname, hdeclares⟩ := List.mem_filterMap.1 hmem
    have hvalueTidy := htidy _ (h.mem_contributors_of_value? hname hdeclares)
    rw [hdeclared] at hmem
    exact hvalueTidy.isToken (hsingle value hmem)
  rw [hdeclared] at htoken
  refine ⟨front, anchor, back, s, topLeft, topRight, bottomRight, bottomLeft, h, rfl, hdeclared, hvalue,
    ?_, ?_⟩
  · rw [hdeclared, hvalue]
    exact radii?_composed htoken
  · rw [KeepsCorners, hdeclared, hvalue]
    exact radii?_composed_eq_iff htoken

/-- Four corners. -/
def fourCorners (topLeft topRight bottomRight bottomLeft : String) : List Node :=
  [.declaration ⟨"border-top-left-radius", topLeft, false⟩,
    .declaration ⟨"border-top-right-radius", topRight, false⟩,
    .declaration ⟨"border-bottom-right-radius", bottomRight, false⟩,
    .declaration ⟨"border-bottom-left-radius", bottomLeft, false⟩]

/-- Four corners are fused when their radii can be carried. -/
theorem fuse?_fourCorners {topLeft topRight bottomRight bottomLeft : String}
    (h : ∀ radius ∈ [topLeft, topRight, bottomRight, bottomLeft], Value.isSingle radius = true) :
    radius.fuse? (fourCorners topLeft topRight bottomRight bottomLeft) =
      some [.declaration ⟨"border-radius",
        topLeft ++ " " ++ topRight ++ " / " ++ bottomRight ++ " " ++ bottomLeft, false⟩] := by
  let slots : Slots := ⟨[some 0, some 1, some 2, some 3]⟩
  have hlocate : Slots.locate (fourCorners topLeft topRight bottomRight bottomLeft)
      radius.longhands = some slots := rfl
  have hcompose : radius.compose
      (slots.values (fourCorners topLeft topRight bottomRight bottomLeft)) =
        some (topLeft ++ " " ++ topRight ++ " / " ++ bottomRight ++ " " ++ bottomLeft) :=
    if_pos (List.all_eq_true.2 h)
  have hindices : slots.indices = [0, 1, 2, 3] := by
    rw [Slots.indices_eq_insertionSort]
    decide
  rw [Family.fuse?, hlocate, Option.bind_eq_bind, Option.bind_some, hcompose,
    Slots.sharedImportance?, Family.anchorIn?, Slots.hasInterference, hindices]
  rfl

/-- Opposite corners that are alike are kept. -/
theorem keepsCorners_fourCorners :
    radius.fuse? (fourCorners "1px" "2px" "1px" "2px") =
        some [.declaration ⟨"border-radius", "1px 2px / 1px 2px", false⟩] ∧
      (∀ d ∈ radius.contributors (fourCorners "1px" "2px" "1px" "2px"), Tidy d.value) ∧
      KeepsCorners (fourCorners "1px" "2px" "1px" "2px")
        ⟨"border-radius", "1px 2px / 1px 2px", false⟩ := by
  have hfuse : radius.fuse? (fourCorners "1px" "2px" "1px" "2px") =
      some [.declaration ⟨"border-radius", "1px 2px / 1px 2px", false⟩] :=
    fuse?_fourCorners (by decide)
  have htidy : ∀ d ∈ radius.contributors (fourCorners "1px" "2px" "1px" "2px"), Tidy d.value := by
    decide
  refine ⟨hfuse, htidy, ?_⟩
  obtain ⟨front, anchor, back, s, topLeft, topRight, bottomRight, bottomLeft, -, hfused, hdeclared, -,
    -, hiff⟩ := keepsCorners_iff_of_fuse? hfuse htidy
  have hfour : declaredRadii (fourCorners "1px" "2px" "1px" "2px") =
      ["1px", "2px", "1px", "2px"] := by decide
  rw [hfour] at hdeclared hiff
  simp only [List.cons.injEq] at hdeclared
  obtain ⟨rfl, rfl, rfl, rfl, -⟩ := hdeclared
  obtain ⟨-, hs⟩ | ⟨-, hs⟩ := List.append_eq_singleton_iff.1 hfused.symm
  · obtain rfl := Node.declaration.inj (List.cons.inj hs).1
    exact hiff.2 ⟨rfl, rfl, by decide⟩
  · cases hs

/-- Four different corners are fused, and the shorthand does not keep them. -/
theorem not_keepsCorners_fourCorners :
    radius.fuse? (fourCorners "1px" "2px" "3px" "4px") =
        some [.declaration ⟨"border-radius", "1px 2px / 3px 4px", false⟩] ∧
      (∀ d ∈ radius.contributors (fourCorners "1px" "2px" "3px" "4px"), Tidy d.value) ∧
      ¬ KeepsCorners (fourCorners "1px" "2px" "3px" "4px")
        ⟨"border-radius", "1px 2px / 3px 4px", false⟩ := by
  refine ⟨fuse?_fourCorners (by decide), by decide, ?_⟩
  rw [KeepsCorners]
  decide

end Stylesheet.Border
