import Stylesheet.Proofs.BackgroundTwice
import Stylesheet.Proofs.FusionFrame
import Stylesheet.Proofs.PlainWord
import Stylesheet.Proofs.ValueGuard

/-!
# Keywords for all properties

Every property takes the keywords `inherit`, `initial`, `unset`, `revert` and `revert-layer`, but only as
its whole value.  A shorthand cannot carry such a keyword beside other values, so a longhand that has one
should keep its family from being fused.

Each step has a test for the values of its longhands (`Step.accepts`), and apart from these tests it only
asks which longhands are declared (`Step.compose_ne_none_iff`).  A keyword for all properties is one word,
and so it passes every test for one word, one layer, or anything at all.  It fails only the two tests that
look words up in a list, those of variant and stretch of a font.  The main result
`fuse?_eq_none_iff_of_isWide` says that everywhere else the keyword counts as any other word does.
-/

namespace Stylesheet

/-! ## Tests of values -/

namespace Step

/-- The test of a step for a value of a longhand. -/
def accepts : Step → String → String → Bool
  | .background, _, value => !Value.isMultiLayer value
  | .side _, _, value => Value.isSingle value
  | .image, _, _ => true
  | .radius, _, value => Value.isSingle value
  | .font, "font-variant", value => Font.isVariant value
  | .font, "font-stretch", value => Font.isStretch value
  | .font, _, value => Font.isGiven value

/-- Are enough longhands declared for a step, whatever their values are? -/
def Enough (step : Step) (declared : String → Bool) : Prop :=
  match step with
  | .background => 2 ≤ Background.longhands.countP declared
  | .side direction => ∀ name ∈ (Border.side direction).longhands, declared name = true
  | .image => 2 ≤ Border.imageLonghands.countP declared ∧
      (declared "border-image-width" = true ∨ declared "border-image-outset" = true →
        declared "border-image-slice" = true)
  | .radius => ∀ name ∈ Border.radiusLonghands, declared name = true
  | .font => declared "font-size" = true ∧ declared "font-family" = true

end Step

theorem Background.compose_map_ne_none_iff (value? : String → Option String) :
    compose (longhands.map value?) ≠ none ↔
      2 ≤ longhands.countP (fun name => (value? name).isSome) ∧
        ∀ name ∈ longhands, ∀ value ∈ value? name, (!Value.isMultiLayer value) = true := by
  rw [compose_ne_none_iff, List.filterMap_map, List.length_filterMap_eq_countP]
  refine and_congr Iff.rfl ⟨fun h name hname value hvalue => ?_, fun h value hmem => ?_⟩
  · rw [h value (List.mem_filterMap.2 ⟨name, hname, hvalue⟩)]
    rfl
  · obtain ⟨name, hname, hvalue⟩ := List.mem_filterMap.1 hmem
    simpa using h name hname value hvalue

theorem Border.composeSide_ne_none_iff (width style color : Option String) :
    composeSide [width, style, color] ≠ none ↔
      (∀ value ∈ [width, style, color], value.isSome = true) ∧
        ∀ value ∈ [width, style, color], ∀ v ∈ value, Value.isSingle v = true := by
  cases width with
  | none => simp [composeSide]
  | some width =>
      cases style with
      | none => simp [composeSide]
      | some style =>
          cases color with
          | none => simp [composeSide]
          | some color => simp [composeSide]

theorem Border.composeRadius_ne_none_iff (a b c d : Option String) :
    composeRadius [a, b, c, d] ≠ none ↔
      (∀ value ∈ [a, b, c, d], value.isSome = true) ∧
        ∀ value ∈ [a, b, c, d], ∀ v ∈ value, Value.isSingle v = true := by
  cases a with
  | none => simp [composeRadius]
  | some a =>
      cases b with
      | none => simp [composeRadius]
      | some b =>
          cases c with
          | none => simp [composeRadius]
          | some c =>
              cases d with
              | none => simp [composeRadius]
              | some d => simp [composeRadius]

theorem Border.composeSlice_ne_none_iff (slice width outset : Option String) :
    composeSlice slice width outset ≠ none ↔
      (width.isSome = true ∨ outset.isSome = true → slice.isSome = true) := by
  cases slice with
  | some slice =>
      cases width with
      | none | some _ =>
          cases outset with
          | none | some _ => simp [composeSlice]
  | none =>
      cases width with
      | none | some _ =>
          cases outset with
          | none | some _ => simp [composeSlice]

theorem Border.composeImage_ne_none_iff (source slice width outset tiling : Option String) :
    composeImage [source, slice, width, outset, tiling] ≠ none ↔
      2 ≤ [source, slice, width, outset, tiling].countP Option.isSome ∧
        (width.isSome = true ∨ outset.isSome = true → slice.isSome = true) := by
  rw [← composeSlice_ne_none_iff, composeImage, List.length_filterMap_eq_countP]
  simp only [id]
  split
  · next hfew => exact iff_of_false (fun hne => hne rfl) fun h => Nat.not_le.2 hfew h.1
  · next hmany =>
      cases composeSlice slice width outset with
      | none => exact iff_of_false (fun hne => hne rfl) fun h => h.2 rfl
      | some middle => exact iff_of_true (Option.some_ne_none _) ⟨Nat.not_lt.1 hmany, Option.some_ne_none _⟩

theorem Font.compose_ne_none_iff (style variant weight stretch size lineHeight family : Option String) :
    compose [style, variant, weight, stretch, size, lineHeight, family] ≠ none ↔
      (size.isSome = true ∧ family.isSome = true) ∧
        style.all isGiven = true ∧ variant.all isVariant = true ∧ weight.all isGiven = true ∧
          stretch.all isStretch = true ∧ size.all isGiven = true ∧ lineHeight.all isGiven = true ∧
            family.all isGiven = true := by
  cases size with
  | none => simp [compose]
  | some size =>
      cases family with
      | none => simp [compose]
      | some family => simp [compose, and_assoc]

namespace Step

/-- The shorthand of a step can carry values when enough longhands are declared and every value passes its
test. -/
theorem compose_ne_none_iff (step : Step) (value? : String → Option String) :
    step.family.compose (step.family.longhands.map value?) ≠ none ↔
      step.Enough (fun name => (value? name).isSome) ∧
        ∀ name ∈ step.family.longhands, ∀ value ∈ value? name, step.accepts name value = true := by
  cases step with
  | background => exact Background.compose_map_ne_none_iff value?
  | side direction =>
      refine (Border.composeSide_ne_none_iff _ _ _).trans ?_
      simp [Enough, accepts, family, Border.side]
  | image =>
      refine (Border.composeImage_ne_none_iff _ _ _ _ _).trans ?_
      simp [Enough, accepts, family, Border.image, Border.imageLonghands, List.countP_cons]
  | radius =>
      refine (Border.composeRadius_ne_none_iff _ _ _ _).trans ?_
      simp [Enough, accepts, family, Border.radius, Border.radiusLonghands]
  | font =>
      refine (Font.compose_ne_none_iff _ _ _ _ _ _ _).trans ?_
      simp [Enough, accepts, family, Font.family, Font.longhands, Option.all_eq_true]

end Step

/-! ## Giving a property another value -/

/-- The declaration with another value, if it is one of the property. -/
def Declaration.assign (name value : String) (d : Declaration) : Declaration :=
  if d.property = name then { d with value := value } else d

/-- The node with another value, if it is a declaration of the property. -/
def Node.assign (name value : String) : Node → Node
  | .declaration d => .declaration (d.assign name value)
  | node => node

theorem Declaration.bare_assign (name value : String) (d : Declaration) :
    (d.assign name value).bare = d.bare := by
  rw [assign]
  split
  · rfl
  · rfl

theorem Node.bare_assign (name value : String) (node : Node) :
    (node.assign name value).bare = node.bare := by
  cases node with
  | declaration d => exact congrArg Node.declaration (d.bare_assign name value)
  | layer | media | rule | comment | statement | atRule => rfl

namespace Body

/-- The body with another value in all declarations of the property. -/
def assign (name value : String) (body : List Node) : List Node := body.map (Node.assign name value)

theorem sameButValues_assign (name value : String) (body : List Node) :
    SameButValues (assign name value body) body :=
  .map (Node.bare_assign name value) body

theorem declarations_assign (name value : String) (body : List Node) :
    declarations (assign name value body) = (declarations body).map (Declaration.assign name value) := by
  induction body with
  | nil => rfl
  | cons node body ih =>
      cases node with
      | declaration d => exact congrArg (d.assign name value :: ·) ih
      | layer | media | rule | comment | statement | atRule => exact ih

theorem value?_assign (name value property : String) (body : List Node) :
    value? property (assign name value body) =
      if property = name then (value? property body).map fun _ => value else value? property body := by
  have hdeclared : declared property (assign name value body) =
      (declared property body).map (Declaration.assign name value) := by
    have hproperty : ∀ d : Declaration, (d.assign name value).property = d.property :=
      fun d => (Declaration.bare_inj (d.bare_assign name value)).1
    rw [declared, declarations_assign, List.filter_map, declared]
    simp only [Function.comp_def, hproperty]
  rw [value?, hdeclared, value?]
  cases hlist : declared property body with
  | nil => simp
  | cons d ds =>
      have hd : d.property = property := (mem_declared.1 (by rw [hlist]; exact List.mem_cons_self)).2
      rw [List.map_cons, List.head?_cons, List.head?_cons, Declaration.assign, hd]
      split
      · rfl
      · rfl

end Body

/-! ## Keywords -/

/-- The keywords that every property takes. -/
def wideKeywords : List String := ["inherit", "initial", "unset", "revert", "revert-layer"]

/-- Is the value a keyword for all properties, whatever its case and the spaces around it? -/
def isWide (value : String) : Bool := wideKeywords.contains (Font.keyword value)

theorem isWord_of_isWide {value : String} (h : isWide value = true) : Value.IsWord value := by
  have hkeywords : wideKeywords.all (fun word => word != "" &&
      word.toList.all (fun c => !Value.isMark c && !Text.isSpace c && c != ',')) = true := by
    decide +kernel
  rw [isWide, List.contains_iff_mem] at h
  have hword := List.all_eq_true.1 hkeywords (Font.keyword value) h
  rw [Bool.and_eq_true, bne_iff_ne, List.all_eq_true] at hword
  obtain ⟨hne, hchars⟩ := hword
  simp only [Bool.and_eq_true, Bool.not_eq_true', bne_iff_ne] at hchars
  exact Value.isWord_of_strip rfl hne (fun c hc => (hchars c hc).1.1) (fun c hc => (hchars c hc).1.2)
    fun c hc => beq_eq_false_iff_ne.2 (hchars c hc).2

/-- A value with a component is not blank. -/
theorem isGiven_of_isSingle {value : String} (h : Value.isSingle value = true) :
    Font.isGiven value = true := by
  cases hblank : Text.blank value with
  | false => rw [Font.isGiven, hblank]; rfl
  | true =>
      have hspaces : Text.Spaces value.toList := List.all_eq_true.1 hblank
      have hnone := Value.Level.split_spaces_append hspaces []
      rw [List.append_nil, ← Value.map_toList_components] at hnone
      rw [Value.isSingle, beq_iff_eq, ← List.length_map (f := String.toList), hnone] at h
      cases h

namespace Step

/-- A word passes every test but those that look words up. -/
theorem accepts_of_isWord (step : Step) {name word : String} (hword : Value.IsWord word)
    (hname : name ∉ ["font-variant", "font-stretch"]) : step.accepts name word = true := by
  unfold accepts
  split
  · rw [hword.isMultiLayer]
    rfl
  · exact hword.isSingle
  · rfl
  · exact hword.isSingle
  · exact absurd (by simp) hname
  · exact absurd (by simp) hname
  · exact isGiven_of_isSingle hword.isSingle

/-- One word is as good as another for a shorthand, but for the longhands that look words up. -/
theorem compose_assign_ne_none_iff (step : Step) {name value word : String} {body : List Node}
    (hname : name ∉ ["font-variant", "font-stretch"]) (hvalue : Body.value? name body = some value)
    (hold : Value.IsWord value) (hnew : Value.IsWord word) :
    step.family.compose
        (step.family.longhands.map fun other => Body.value? other (Body.assign name word body)) ≠ none ↔
      step.family.compose (step.family.longhands.map fun other => Body.value? other body) ≠ none := by
  have hassigned : Body.value? name (Body.assign name word body) = some word := by
    rw [Body.value?_assign, if_pos rfl, hvalue]
    rfl
  have hother : ∀ {other}, other ≠ name →
      Body.value? other (Body.assign name word body) = Body.value? other body := by
    intro other hne
    rw [Body.value?_assign, if_neg hne]
  rw [compose_ne_none_iff, compose_ne_none_iff]
  refine and_congr (iff_of_eq (congrArg step.Enough (funext fun other => ?_)))
    (forall₂_congr fun other _ => ?_)
  · by_cases hne : other = name
    · rw [hne, hassigned, hvalue]
      rfl
    · rw [hother hne]
  · by_cases hne : other = name
    · subst hne
      rw [hassigned, hvalue]
      refine iff_of_true ?_ ?_
      · rintro _ ⟨⟩
        exact step.accepts_of_isWord hnew hname
      · rintro _ ⟨⟩
        exact step.accepts_of_isWord hold hname
    · rw [hother hne]

/-- A keyword for all properties fails the tests that look words up. -/
theorem accepts_of_isWide {name value : String} (hwide : isWide value = true)
    (hname : name ∈ ["font-variant", "font-stretch"]) : Step.font.accepts name value = false := by
  have hlists : ∀ word ∈ wideKeywords, (word == "normal" || word == "small-caps") = false ∧
      Font.stretchKeywords.contains word = false := by decide +kernel
  rw [isWide, List.contains_iff_mem] at hwide
  obtain ⟨hvariant, hstretch⟩ := hlists (Font.keyword value) hwide
  rcases List.mem_pair.1 hname with rfl | rfl
  · rw [accepts, Font.isVariant, hvariant]
  · rw [accepts, Font.isStretch, hstretch]

/-- Only the family of a font has these longhands. -/
theorem eq_font_of_mem {step : Step} {name : String} (h : name ∈ step.family.longhands)
    (hname : name ∈ ["font-variant", "font-stretch"]) : step = .font := by
  cases step with
  | font => rfl
  | background => exact absurd hname ((by decide : ∀ name ∈ Background.longhands, name ∉ _) name h)
  | image => exact absurd hname ((by decide : ∀ name ∈ Border.imageLonghands, name ∉ _) name h)
  | radius => exact absurd hname ((by decide : ∀ name ∈ Border.radiusLonghands, name ∉ _) name h)
  | side direction =>
      have hborder := (Border.within_side direction).longhands name h
      have hfont : ∀ name ∈ ["font-variant", "font-stretch"], Pass.border.names name = false := by decide
      rw [hfont name hname] at hborder
      cases hborder

/-- A font with such a variant or stretch is not fused. -/
theorem fuse?_eq_none_of_isWide {step : Step} {name value : String} {body : List Node}
    (h : name ∈ step.family.longhands) (hname : name ∈ ["font-variant", "font-stretch"])
    (hvalue : Body.value? name body = some value) (hwide : isWide value = true) :
    step.family.fuse? body = none := by
  obtain rfl := eq_font_of_mem h hname
  by_contra hfuse
  have hcompose := Family.compose_ne_none_of_fuse? font.nodup_longhands hfuse
  have haccepts := ((compose_ne_none_iff _ _).1 hcompose).2 name h value hvalue
  rw [accepts_of_isWide hwide hname] at haccepts
  cases haccepts

end Step

/-- Where a longhand has a keyword for all properties, its family is not fused if the longhand is the
variant or the stretch of a font; otherwise it is not fused only if it would not be fused with any other word
in the place of the keyword. -/
theorem fuse?_eq_none_iff_of_isWide (step : Step) {name value word : String} {body : List Node}
    (hname : name ∈ step.family.longhands) (hvalue : Body.value? name body = some value)
    (hwide : isWide value = true) (hword : Value.IsWord word) :
    step.family.fuse? body = none ↔
      name ∈ ["font-variant", "font-stretch"] ∨
        step.family.fuse? (Body.assign name word body) = none := by
  by_cases hlooked : name ∈ ["font-variant", "font-stretch"]
  · exact iff_of_true (Step.fuse?_eq_none_of_isWide hname hlooked hvalue hwide) (.inl hlooked)
  · rw [or_iff_right hlooked]
    have hcompose := step.compose_assign_ne_none_iff hlooked hvalue (isWord_of_isWide hwide) hword
    exact (Family.fuse?_eq_none_congr_values step.nodup_longhands
      (Body.sameButValues_assign name word body) hcompose).symm

/-- A background color that is inherited, before an image. -/
def inheritedColor : List Node :=
  [.declaration ⟨"background-color", " INHERIT", false⟩, .declaration ⟨"background-image", "none", false⟩]

theorem fuse?_assign_inheritedColor :
    Background.family.fuse? (Body.assign "background-color" "red" inheritedColor) =
      some [.declaration ⟨"background", "red none", false⟩] := by
  simp only [Family.fuse?, Family.anchorIn?, Slots.sharedImportance?, Slots.hasInterference,
    Slots.indices_eq_insertionSort]
  decide +kernel

/-- The inherited color is fused with the image, since a color of another word is. -/
theorem fuse?_inheritedColor :
    Body.value? "background-color" inheritedColor = some " INHERIT" ∧ isWide " INHERIT" = true ∧
      Step.background.family.fuse? inheritedColor ≠ none := by
  have hvalue : Body.value? "background-color" inheritedColor = some " INHERIT" := by decide
  have hwide : isWide " INHERIT" = true := by decide +kernel
  refine ⟨hvalue, hwide, fun hnone => ?_⟩
  have hiff := fuse?_eq_none_iff_of_isWide .background (by decide) hvalue hwide
    (⟨by decide +kernel, by decide +kernel⟩ : Value.IsWord "red")
  rcases hiff.1 hnone with hlooked | hassigned
  · exact absurd hlooked (by decide)
  · exact absurd (fuse?_assign_inheritedColor.symm.trans hassigned) (Option.some_ne_none _)

end Stylesheet
