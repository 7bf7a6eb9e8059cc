import Stylesheet.Proofs.DeclarationText
import Stylesheet.Proofs.ValueLayout

/-!
# Plain words

Keywords are compared in lower case, and without the spaces around them.  A text that is a plain word
in this form has none of the characters to which the splitter pays attention, since these are no
letters.  So the splitter is at the top level behind it (`closed_of_lowercase`), and it is a value with
one component and one layer (`isWord_of_strip`).
-/

namespace Stylesheet

open Stylesheet.Text (trim isSpace lower Spaces)

/-- A class without letters that holds nowhere in the lower case of a text holds nowhere in the text. -/
theorem Text.class_of_lower {p : Char → Bool} (hp : ∀ c : Char, c.isAlpha = true → p c = false)
    {cs : List Char} (h : ∀ c ∈ lower cs, p c = false) : ∀ c ∈ cs, p c = false := by
  intro c hc
  rw [← Text.class_toLower hp]
  exact h c.toLower (List.mem_map_of_mem hc)

namespace Value

/-! ## Characters that open nothing -/

theorem isMark_of_isAlpha (c : Char) (h : c.isAlpha = true) : isMark c = false :=
  isMark_of_class (by decide) h

theorem along_of_not_isMark {cs : List Char} (h : ∀ c ∈ cs, isMark c = false) :
    ({} : Nesting).along cs = {} := by
  induction cs with
  | nil => rfl
  | cons c cs ih =>
      obtain ⟨hc, hcs⟩ := List.forall_mem_cons.1 h
      rw [Nesting.along_cons, next_of_not_isMark hc, ih hcs]

theorem whole_of_not_isSeparator {isSeparator : Char → Bool} {cs : List Char}
    (h : ∀ c ∈ cs, isSeparator c = false) (s : Nesting) : Whole isSeparator s cs := by
  induction cs generalizing s with
  | nil => rfl
  | cons c cs ih =>
      obtain ⟨hc, hcs⟩ := List.forall_mem_cons.1 h
      exact whole_cons_iff.2 ⟨by rw [hc, Bool.and_false], ih hcs _⟩

/-- A text that is a word without marks in lower case leaves nothing open. -/
theorem closed_of_lowercase {w word : String} (h : Text.lowercase w = word)
    (hword : ∀ c ∈ word.toList, isMark c = false) : Closed w := by
  refine along_of_not_isMark (Text.class_of_lower isMark_of_isAlpha ?_)
  rw [← h, Text.lowercase, String.toList_ofList] at hword
  exact hword

/-! ## Words with spaces around them -/

/-- A value with one component and one layer. -/
structure IsWord (value : String) : Prop where
  /-- It has one component. -/
  isSingle : isSingle value = true
  /-- It has one layer. -/
  isMultiLayer : isMultiLayer value = false

namespace Level

/-- Spaces before a text are no component. -/
theorem split_spaces_append {gap : List Char} (h : Spaces gap) (cs : List Char) :
    component.split (gap ++ cs) = component.split cs := by
  induction gap with
  | nil => rfl
  | cons c gap ih =>
      obtain ⟨hc, hgap⟩ := List.forall_mem_cons.1 h
      have hcut : component.split ([] ++ c :: (gap ++ cs)) =
          component.split [] ++ component.split (gap ++ cs) := split_append rfl hc (gap ++ cs)
      exact hcut.trans (ih hgap)

/-- Spaces behind a closed text are no component. -/
theorem split_append_spaces {cs gap : List Char} (hcs : ({} : Nesting).along cs = {})
    (h : Spaces gap) : component.split (cs ++ gap) = component.split cs := by
  cases gap with
  | nil => rw [List.append_nil]
  | cons c gap =>
      obtain ⟨hc, hgap⟩ := List.forall_mem_cons.1 h
      have hnone : component.split gap = [] := by
        have hspaces := split_spaces_append hgap []
        rwa [List.append_nil] at hspaces
      rw [split_append hcs hc, hnone, List.append_nil]

end Level

/-- A word without marks, spaces and commas is one component and one layer, also with spaces around it
and in another case. -/
theorem isWord_of_strip {value word : String} (h : Text.lowercase (Text.strip value) = word)
    (hne : word ≠ "") (hmark : ∀ c ∈ word.toList, isMark c = false)
    (hspace : ∀ c ∈ word.toList, isSpace c = false) (hcomma : ∀ c ∈ word.toList, (c == ',') = false) :
    IsWord value := by
  obtain ⟨a, b, hvalue, ha, hb, -⟩ := Text.exists_trim value.toList
  have hlower : lower (trim value.toList) = word.toList := by
    rw [← h, Text.lowercase, String.toList_ofList, Text.strip, String.toList_ofList]
  generalize trim value.toList = m at hvalue hlower
  rw [← hlower] at hmark hspace hcomma
  have hletter : ∀ c : Char, c.isAlpha = true → (c == ',') = false := by
    intro c hc
    rw [beq_eq_false_iff_ne]
    rintro rfl
    cases hc
  have hclosed := along_of_not_isMark (Text.class_of_lower isMark_of_isAlpha hmark)
  have hwhole : Whole Level.component.isSeparator {} m :=
    whole_of_not_isSeparator (Text.class_of_lower Text.isSpace_of_isAlpha hspace) {}
  have hmne : m ≠ [] := by
    rintro rfl
    exact hne (String.toList_inj.1 hlower.symm)
  have hpiece : Level.component.IsPiece m :=
    ⟨Text.trimmed_of_plain (Text.class_of_lower Text.isSpace_of_isAlpha hspace), hmne, hwhole⟩
  constructor
  · have hsplit : Level.component.split value.toList = [m] := by
      rw [hvalue, List.append_assoc, Level.split_spaces_append ha,
        Level.split_append_spaces hclosed hb, hpiece.split_eq]
    rw [isSingle, beq_iff_eq, ← List.length_map, map_toList_components, hsplit, List.length_singleton]
  · have hnone : ∀ c ∈ value.toList, (c == ',') = false := by
      have hspaces : ∀ c : Char, isSpace c = true → (c == ',') = false := by
        intro c hc
        rw [beq_eq_false_iff_ne]
        rintro rfl
        cases hc
      rw [hvalue]
      refine List.forall_mem_append.2 ⟨List.forall_mem_append.2 ⟨fun c hc => hspaces c (ha c hc), ?_⟩,
        fun c hc => hspaces c (hb c hc)⟩
      exact Text.class_of_lower hletter hcomma
    have hone : Whole Level.layer.isSeparator {} value.toList := whole_of_not_isSeparator hnone {}
    rw [isMultiLayer, decide_eq_false_iff_not, ← List.length_map, map_toList_layers,
      Level.split_of_whole hone]
    split
    · simp
    · simp

end Value

end Stylesheet
