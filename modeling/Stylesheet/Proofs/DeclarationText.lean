import Mathlib
import Stylesheet.Node.Printer
import Stylesheet.Node.Reader
import Stylesheet.Proofs.Trimming

/-!
# The text of declarations

A declaration that was read is *normal*: its property is a name in the case that it is known by, its
value is trimmed, and what is not marked important does not look as if it were.  A normal
declaration is read back from its text in both styles (`ofText?_declarationText`), and reading gives
normal declarations only (`normal_of_ofText?`).
-/

namespace Stylesheet

open Stylesheet.Text (trim trimEnd lower splitFirst? splitLast? sameIgnoringCase isSpace headIs
  Spaces Trimmed)

namespace Text

/-! ## Letter case -/

theorem isAlpha_iff {c : Char} : c.isAlpha = true ↔
    (65 ≤ c.toNat ∧ c.toNat ≤ 90) ∨ (97 ≤ c.toNat ∧ c.toNat ≤ 122) := by
  simp [Char.isAlpha, Char.isUpper, Char.isLower, UInt32.le_iff_toNat_le]

/-- A class without letters holds of a character whatever its case. -/
theorem class_toLower {p : Char → Bool} (hp : ∀ c : Char, c.isAlpha = true → p c = false)
    (c : Char) : p c.toLower = p c := by
  by_cases h : c.isAlpha = true
  · rw [hp c h, hp c.toLower (by rwa [Char.isAlpha_toLower_eq_isAlpha])]
  · have hupper : ¬c.isUpper = true := by
      intro hupper
      exact h (by rw [Char.isAlpha, hupper, Bool.true_or])
    rw [Char.toLower_eq_of_not_isUpper hupper]

theorem isSpace_of_isAlpha (c : Char) (h : c.isAlpha = true) : isSpace c = false := by
  rw [isAlpha_iff] at h
  simp [isSpace]
  omega

/-- A character that is no letter is what it is in lower case only. -/
theorem toLower_eq_iff {d : Char} (hd : d.isAlpha = false) (c : Char) : c.toLower = d ↔ c = d := by
  have hletter : ∀ c : Char, c.isAlpha = true → (c == d) = false := by
    intro c hc
    rw [beq_eq_false_iff_ne]
    rintro rfl
    rw [hc] at hd
    cases hd
  rw [← beq_iff_eq, class_toLower hletter, beq_iff_eq]

theorem lower_lower (cs : List Char) : lower (lower cs) = lower cs := by
  rw [lower, lower, List.map_map]
  refine List.map_congr_left ?_
  intro c _
  exact Char.toLower_toLower_eq_toLower c

/-- A text without letters in upper case. -/
def IsLower (cs : List Char) : Prop := ∀ c ∈ cs, c.isUpper = false

theorem isLower_lower (cs : List Char) : IsLower (lower cs) := by
  intro c hc
  obtain ⟨d, -, rfl⟩ := List.mem_map.1 hc
  exact Char.isUpper_toLower_eq_false d

/-! ## Cutting -/

theorem splitFirst?_append {c : Char} {before : List Char} (h : c ∉ before) (after : List Char) :
    splitFirst? c (before ++ c :: after) = some (before, after) := by
  induction before with
  | nil => simp [splitFirst?]
  | cons x xs ih =>
      rw [List.mem_cons, not_or] at h
      rw [List.cons_append, splitFirst?, if_neg (Ne.symm h.1), ih h.2]
      rfl

/-- The first cut is the first. -/
theorem not_mem_of_splitFirst? {c : Char} {cs before after : List Char}
    (h : splitFirst? c cs = some (before, after)) : c ∉ before := by
  induction cs generalizing before with
  | nil => exact absurd h (by simp [splitFirst?])
  | cons x xs ih =>
      rw [splitFirst?] at h
      split at h
      · cases h
        exact List.not_mem_nil
      · next hx =>
          obtain ⟨⟨b, a⟩, hs, hp⟩ := Option.map_eq_some_iff.1 h
          cases hp
          rw [List.mem_cons, not_or]
          exact ⟨Ne.symm hx, ih hs⟩

theorem splitLast?_eq_none {c : Char} {cs : List Char} (h : c ∉ cs) : splitLast? c cs = none := by
  induction cs with
  | nil => rfl
  | cons x xs ih =>
      rw [List.mem_cons, not_or] at h
      rw [splitLast?, ih h.2, if_neg (Ne.symm h.1)]

theorem splitLast?_append {c : Char} {after : List Char} (h : c ∉ after) (before : List Char) :
    splitLast? c (before ++ c :: after) = some (before, after) := by
  induction before with
  | nil => rw [List.nil_append, splitLast?, splitLast?_eq_none h, if_pos rfl]
  | cons x xs ih => rw [List.cons_append, splitLast?, ih]

end Text

namespace Declaration

open Node (declarationText)

/-! ## Normal declarations -/

/-- A declaration as reading gives it. -/
structure Normal (d : Declaration) : Prop where
  /-- The property has a name. -/
  named : d.property.toList ≠ []
  /-- The name has no colon and no spaces. -/
  plain : ∀ c ∈ d.property.toList, c ≠ ':' ∧ isSpace c = false
  /-- The name is in the case that it is known by. -/
  cased : propertyName d.property.toList = d.property.toList
  /-- The value is trimmed. -/
  trimmed : Trimmed d.value.toList
  /-- Only an important declaration ends with an `!important`. -/
  unmarked : d.important = false → splitImportance d.value.toList = (d.value.toList, false)

/-- Spaces around a value do not count. -/
theorem splitImportance_spaces {a b : List Char} (ha : Spaces a) (hb : Spaces b)
    (cs : List Char) : splitImportance (a ++ cs ++ b) = splitImportance cs := by
  rw [splitImportance, Text.trim_spaces ha hb, splitImportance]

/-- The mark at the end of an important value is taken off. -/
theorem splitImportance_important {value gap : List Char} (hvalue : Trimmed value)
    (hgap : Spaces gap) :
    splitImportance (value ++ gap ++ "!important".toList) = (value, true) := by
  have hmark : Trimmed "!important".toList := ⟨rfl, rfl⟩
  have hsplit : ∀ cs, splitLast? '!' (cs ++ "!important".toList) = some (cs, "important".toList) :=
    fun cs => Text.splitLast?_append (by decide) cs
  have hword : sameIgnoringCase (trim "important".toList) "important".toList = true := rfl
  by_cases hnil : value = []
  · subst hnil
    have htrim := Text.trim_eq_of_trimmed hgap hmark Text.spaces_nil
    have hself := hsplit []
    rw [List.append_nil] at htrim
    rw [List.nil_append] at hself
    rw [splitImportance, List.nil_append, htrim, hself]
    simp only [hword, if_true]
    rfl
  · have htrimmed : Trimmed (value ++ gap ++ "!important".toList) := by
      refine ⟨?_, ?_⟩
      · rw [List.append_assoc, Text.headIs_append_of_ne_nil hnil]
        exact hvalue.1
      · rw [List.reverse_append, Text.headIs_append_of_ne_nil (by decide)]
        exact hmark.2
    rw [splitImportance, Text.trim_eq_self_iff.2 htrimmed, hsplit]
    simp only [hword, if_true, Text.trimEnd_append_spaces hvalue.2 hgap]

/-- The text of a declaration is its property, a colon, and its value with a mark at most. -/
theorem declarationText_eq (style : Style) (d : Declaration) :
    ∃ sp gap, Spaces sp ∧ Spaces gap ∧
      declarationText style d = d.property.toList ++ ':' :: (sp ++ (d.value.toList ++
        if d.important then gap ++ "!important".toList else []) ++ []) := by
  have hspace : Spaces [' '] := by simp [Spaces, isSpace]
  cases style with
  | pretty =>
      refine ⟨[' '], [' '], hspace, hspace, ?_⟩
      cases hd : d.important <;> simp [declarationText, hd]
  | minified =>
      refine ⟨[], [], Text.spaces_nil, Text.spaces_nil, ?_⟩
      cases hd : d.important <;> simp [declarationText, hd]

/-- A normal declaration is read back from its text. -/
theorem Normal.ofText?_declarationText {d : Declaration} (h : d.Normal) (style : Style) :
    ofText? (declarationText style d) = some d := by
  obtain ⟨sp, gap, hsp, hgap, htext⟩ := declarationText_eq style d
  have hcolon : ':' ∉ d.property.toList := fun hc => (h.plain ':' hc).1 rfl
  have hname : trim d.property.toList = d.property.toList :=
    Text.trim_eq_self_iff.2 (Text.trimmed_of_plain fun c hc => (h.plain c hc).2)
  have hvalid : (d.property.toList.isEmpty || d.property.toList.any isSpace) = false := by
    rw [Bool.or_eq_false_iff, List.any_eq_false]
    exact ⟨by simpa using h.named, fun c hc => by simp [(h.plain c hc).2]⟩
  have hvalue : splitImportance (d.value.toList ++
      if d.important then gap ++ "!important".toList else []) = (d.value.toList, d.important) := by
    cases hd : d.important with
    | true =>
        rw [if_pos rfl, ← List.append_assoc]
        exact splitImportance_important h.trimmed hgap
    | false =>
        rw [if_neg (by decide), List.append_nil]
        exact h.unmarked hd
  rw [htext, ofText?, Text.splitFirst?_append hcolon]
  simp only [Option.bind_eq_bind, Option.bind_some, hname, hvalid, Bool.false_eq_true, if_false,
    splitImportance_spaces hsp Text.spaces_nil, hvalue, h.cased, String.ofList_toList]

/-! ## Reading gives normal declarations -/

theorem propertyName_propertyName (name : List Char) :
    propertyName (propertyName name) = propertyName name := by
  have hlower : ['-', '-'].isPrefixOf (lower name) = ['-', '-'].isPrefixOf name := by
    have hmark : ∀ c : Char, ('-' == c.toLower) = ('-' == c) := by
      intro c
      rw [Bool.eq_iff_iff, beq_iff_eq, beq_iff_eq, eq_comm, Text.toLower_eq_iff rfl, eq_comm]
    match name with
    | [] => rfl
    | [c] => simp [lower, List.isPrefixOf]
    | c :: d :: rest => simp [lower, List.isPrefixOf, hmark]
  by_cases h : ['-', '-'].isPrefixOf name = true
  · rw [propertyName.eq_def name, if_pos h, propertyName, if_pos h]
  · rw [propertyName.eq_def name, if_neg h, propertyName, hlower, if_neg h, Text.lower_lower]

/-- What a property name in its own case is made of. -/
theorem plain_propertyName {name : List Char} (h : ∀ c ∈ name, c ≠ ':' ∧ isSpace c = false) :
    ∀ c ∈ propertyName name, c ≠ ':' ∧ isSpace c = false := by
  rw [propertyName]
  split
  · exact h
  · intro c hc
    obtain ⟨d, hd, rfl⟩ := List.mem_map.1 hc
    rw [ne_eq, Text.toLower_eq_iff rfl, Text.class_toLower Text.isSpace_of_isAlpha]
    exact h d hd

theorem mem_trim {cs : List Char} {c : Char} (h : c ∈ trim cs) : c ∈ cs :=
  (Text.trim_slice cs).subset h

/-- What is left of a value is trimmed, and looks unmarked when it was. -/
theorem splitImportance_cases {text value : List Char} {important : Bool}
    (h : splitImportance text = (value, important)) :
    Trimmed value ∧ (important = false → splitImportance value = (value, false)) := by
  have hunmarked : (trim text, false) = (value, important) → splitImportance text = (trim text, false) →
      Trimmed value ∧ (important = false → splitImportance value = (value, false)) := by
    intro hvalue hall
    cases hvalue
    refine ⟨Text.trimmed_trim text, fun _ => ?_⟩
    rw [splitImportance, Text.trim_trim]
    exact hall
  have hall := h
  rw [splitImportance] at h
  split at h
  · next before after hsplit =>
      split at h
      · cases h
        refine ⟨?_, fun hfalse => absurd hfalse (by decide)⟩
        have htext := Text.splitLast?_eq_some hsplit
        have hhead : headIs isSpace before = false := by
          by_cases hnil : before = []
          · rw [hnil]
            rfl
          · rw [← Text.headIs_append_of_ne_nil hnil, ← htext]
            exact (Text.trimmed_trim text).1
        rw [Text.trimEnd_eq_trim hhead]
        exact Text.trimmed_trim before
      · exact hunmarked h (by rw [hall, h])
  · exact hunmarked h (by rw [hall, h])

/-- A declaration is read from a name, the first colon, and a value. -/
theorem ofText?_eq_some {text : List Char} {d : Declaration} (h : ofText? text = some d) :
    ∃ before after, text = before ++ ':' :: after ∧ ':' ∉ before ∧ trim before ≠ [] ∧
      (∀ c ∈ trim before, isSpace c = false) ∧
      d.property.toList = propertyName (trim before) ∧
      splitImportance after = (d.value.toList, d.important) := by
  rw [ofText?] at h
  cases hsplit : splitFirst? ':' text with
  | none =>
      rw [hsplit] at h
      cases h
  | some cut =>
      obtain ⟨before, after⟩ := cut
      rw [hsplit] at h
      simp only [Option.bind_eq_bind, Option.bind_some] at h
      split at h
      · cases h
      · next hvalid =>
          rw [Bool.not_eq_true, Bool.or_eq_false_iff, List.any_eq_false] at hvalid
          cases h
          refine ⟨before, after, Text.splitFirst?_eq_some hsplit,
            Text.not_mem_of_splitFirst? hsplit, by simpa using hvalid.1, ?_, ?_, ?_⟩
          · intro c hc
            simpa using hvalid.2 c hc
          · rw [String.toList_ofList]
          · rw [String.toList_ofList]

/-- Reading gives normal declarations. -/
theorem normal_of_ofText? {text : List Char} {d : Declaration} (h : ofText? text = some d) :
    d.Normal := by
  obtain ⟨before, after, -, hcolon, hne, hspace, hproperty, hvalue⟩ := ofText?_eq_some h
  have hplain : ∀ c ∈ trim before, c ≠ ':' ∧ isSpace c = false := by
    intro c hc
    refine ⟨?_, hspace c hc⟩
    rintro rfl
    exact hcolon (mem_trim hc)
  have himportance := splitImportance_cases hvalue
  refine ⟨?_, ?_, ?_, himportance.1, himportance.2⟩
  · rw [hproperty, propertyName]
    split
    · exact hne
    · simpa [lower] using hne
  · rw [hproperty]
    exact plain_propertyName hplain
  · rw [hproperty, propertyName_propertyName]

end Declaration

end Stylesheet
