import Stylesheet.Proofs.ConditionParts

/-!
# Two notations for bounds

A bound can be written as a comparison, with the feature on either side, and with a prefix in front of the
name of the feature.  Media blocks are ordered alike in both notations (`samePlace_of_notation`).

The two notations are told apart by different scans, and what else a condition says is looked for in the
whole text.  All texts here are made of a name and one or two values with gaps around them, so the marks
are those of the name and of the values (`marks_comparison`, `marks_prefixed`), and only the bounds have to
be found (`bounds_comparison`, `bounds_chain`, `bounds_prefixed`, `bounds_pair`).

The name must not hold a prefix itself: in `(min-max-x: 1)` the second one would be found too.
-/

namespace Stylesheet.Media

open Stylesheet.Text (headIs isSpace lower IsLower Spaces)
open Stylesheet.Unicode (isDecimal isWord isWordAt)

/-! ## Names and values -/

/-- A name of lower-case letters and hyphens that starts with a letter and holds no prefix of a bound. -/
structure IsFeatureName (name : String) : Prop where
  /-- It is made of lower-case letters and hyphens. -/
  chars : ∀ c ∈ name.toList, isFeatureChar c = true
  /-- It starts with a letter. -/
  head : headIs Char.isLower name.toList = true
  /-- It does not hold the prefix of a lower bound. -/
  not_min : Text.occurs "min-".toList name.toList = false
  /-- It does not hold the prefix of an upper bound. -/
  not_max : Text.occurs "max-".toList name.toList = false

/-- A character of a value. -/
def isValueChar (c : Char) : Bool := c.isDigit || c == '.' || c.isLower || c == '%'

/-- A value of digits, points, lower-case letters and percent signs that starts with a digit or a
point. -/
structure IsBoundValue (value : String) : Prop where
  /-- It is made of these characters. -/
  chars : ∀ c ∈ value.toList, isValueChar c = true
  /-- It starts with a digit or a point. -/
  head : headIs (fun c => c.isDigit || c == '.') value.toList = true

instance (name : String) : Decidable (IsFeatureName name) :=
  decidable_of_iff (name.toList.all isFeatureChar = true ∧ headIs Char.isLower name.toList = true ∧
      Text.occurs "min-".toList name.toList = false ∧ Text.occurs "max-".toList name.toList = false)
    ⟨fun h => ⟨List.all_eq_true.1 h.1, h.2.1, h.2.2.1, h.2.2.2⟩,
      fun h => ⟨List.all_eq_true.2 h.chars, h.head, h.not_min, h.not_max⟩⟩

instance (value : String) : Decidable (IsBoundValue value) :=
  decidable_of_iff (value.toList.all isValueChar = true ∧
      headIs (fun c => c.isDigit || c == '.') value.toList = true)
    ⟨fun h => ⟨List.all_eq_true.1 h.1, h.2⟩, fun h => ⟨List.all_eq_true.2 h.chars, h.head⟩⟩

/-- The characters of values by their code points. -/
theorem isValueChar_iff {c : Char} : isValueChar c = true ↔
    (48 ≤ c.toNat ∧ c.toNat ≤ 57) ∨ c.toNat = 46 ∨ (97 ≤ c.toNat ∧ c.toNat ≤ 122) ∨ c.toNat = 37 := by
  have hchar : ∀ d : Char, c = d ↔ c.toNat = d.toNat := fun d => (Char.toNat_inj).symm
  simp only [isValueChar, Char.isDigit, Char.isLower, Bool.or_eq_true, Bool.and_eq_true,
    decide_eq_true_eq, UInt32.le_iff_toNat_le, beq_iff_eq, hchar]
  simp [or_assoc]

theorem isFeatureChar_iff {c : Char} :
    isFeatureChar c = true ↔ (97 ≤ c.toNat ∧ c.toNat ≤ 122) ∨ c.toNat = 45 := by
  have hchar : c = '-' ↔ c.toNat = 45 := (Char.toNat_inj).symm
  simp only [isFeatureChar, Char.isLower, Bool.or_eq_true, Bool.and_eq_true, decide_eq_true_eq,
    UInt32.le_iff_toNat_le, beq_iff_eq, hchar]
  simp

/-- The characters of a condition that mean something in it. -/
def markers : List Char := ['(', ')', ':', '<', '>', '=']

theorem isUpper_eq_false {c : Char} (h : (97 ≤ c.toNat ∧ c.toNat ≤ 122) ∨ c.toNat < 65) :
    c.isUpper = false := by
  rw [Bool.eq_false_iff]
  simp only [Char.isUpper, ne_eq, decide_eq_true_eq, UInt32.le_iff_toNat_le]
  have hval : c.val.toNat = c.toNat := rfl
  simp [hval]
  omega

/-- A text that stands between gaps in a condition: it is in lower case, it has no spaces at its ends and
none of the markers in it. -/
structure IsOperand (cs : List Char) : Prop where
  /-- It is in lower case. -/
  lower_eq : lower cs = cs
  /-- Spaces at its ends are none of it. -/
  trimmed : Text.Trimmed cs
  /-- It has no markers. -/
  plain : ∀ c ∈ cs, c ∉ markers

theorem isOperand_of_class {p : Char → Bool} {cs : List Char} (hcs : ∀ c ∈ cs, p c = true)
    (hupper : ∀ c, p c = true → c.isUpper = false) (hspace : ∀ c, p c = true → isSpace c = false)
    (hmarkers : markers.all (fun c => !p c) = true) : IsOperand cs := by
  refine ⟨?_, Text.trimmed_of_plain fun c hc => hspace c (hcs c hc),
    fun c hc => Text.not_mem_of_class hmarkers (hcs c hc)⟩
  rw [lower]
  refine (List.map_congr_left fun c hc => ?_).trans (List.map_id cs)
  exact Char.toLower_eq_of_not_isUpper (by rw [hupper c (hcs c hc)]; exact Bool.false_ne_true)

theorem IsOperand.comparison? {cs : List Char} (h : IsOperand cs) :
    ∀ c ∈ cs, comparison? c = none := by
  intro c hc
  have hless : (c == '<') = false := beq_false_of_ne fun heq => h.plain c hc (by simp [markers, heq])
  have hgreater : (c == '>') = false := beq_false_of_ne fun heq => h.plain c hc (by simp [markers, heq])
  rw [Media.comparison?, hless, hgreater]
  rfl

theorem IsOperand.comparison?_cons_space {cs : List Char} (h : IsOperand cs) :
    ∀ c ∈ ' ' :: cs, Media.comparison? c = none :=
  List.forall_mem_cons.2 ⟨rfl, h.comparison?⟩

theorem IsFeatureName.isOperand {name : String} (h : IsFeatureName name) : IsOperand name.toList := by
  refine isOperand_of_class h.chars (fun c hc => ?_) (fun c hc => ?_) (by decide)
  · rw [isFeatureChar_iff] at hc
    exact isUpper_eq_false (by omega)
  · rw [isFeatureChar_iff] at hc
    simp [isSpace]
    omega

theorem IsBoundValue.isOperand {value : String} (h : IsBoundValue value) :
    IsOperand value.toList := by
  refine isOperand_of_class h.chars (fun c hc => ?_) (fun c hc => ?_) (by decide)
  · rw [isValueChar_iff] at hc
    exact isUpper_eq_false (by omega)
  · rw [isValueChar_iff] at hc
    simp [isSpace]
    omega

theorem isFeature_of_trimmed {cs : List Char} (h : Text.Trimmed cs) :
    isFeature cs = headIs Char.isAlpha cs := by rw [isFeature, Text.trim_eq_self_iff.2 h]

theorem IsFeatureName.isFeature {name : String} (h : IsFeatureName name) :
    isFeature name.toList = true := by
  have hhead := h.head
  rw [isFeature_of_trimmed h.isOperand.trimmed]
  cases htext : name.toList with
  | nil =>
      rw [htext] at hhead
      cases hhead
  | cons c cs =>
      rw [htext] at hhead
      have hc : c.isLower = true := hhead
      show c.isAlpha = true
      rw [Char.isAlpha, hc, Bool.or_true]

theorem IsBoundValue.isFeature {value : String} (h : IsBoundValue value) :
    isFeature value.toList = false := by
  have hhead := h.head
  rw [isFeature_of_trimmed h.isOperand.trimmed]
  cases htext : value.toList with
  | nil => rfl
  | cons c cs =>
      rw [htext] at hhead
      have hc : (c.isDigit || c == '.') = true := hhead
      show c.isAlpha = false
      rw [Bool.eq_false_iff, ne_eq, Text.isAlpha_iff]
      rcases (Bool.or_eq_true _ _).mp hc with hdigit | hpoint
      · simp only [Char.isDigit, Bool.and_eq_true, decide_eq_true_eq, UInt32.le_iff_toNat_le] at hdigit
        have hval : c.val.toNat = c.toNat := rfl
        rw [hval] at hdigit
        have hnine : '9'.val.toNat = 57 := rfl
        omega
      · rw [beq_iff_eq.1 hpoint]
        decide

/-! ## Marks -/

/-- A name has no numbers. -/
theorem quantities_of_feature {cs : List Char} (h : ∀ c ∈ cs, isFeatureChar c = true) :
    quantities cs = [] := by
  refine quantities_eq_nil fun c hc => ?_
  have hchar := isFeatureChar_iff.1 (h c hc)
  refine ⟨?_, fun heq => ?_⟩
  · have hdigit : c.isDigit = false := by
      rw [Bool.eq_false_iff]
      simp only [Char.isDigit, ne_eq, Bool.and_eq_true, decide_eq_true_eq, UInt32.le_iff_toNat_le]
      have hval : c.val.toNat = c.toNat := rfl
      have hzero : '0'.val.toNat = 48 := rfl
      have hnine : '9'.val.toNat = 57 := rfl
      omega
    rw [isDecimal, if_pos (by omega), hdigit]
  · rw [heq] at hchar
    exact absurd hchar (by decide)

theorem IsFeatureName.marks {name : String} (h : IsFeatureName name) :
    Marks.of name.toList = ⟨hasWord "print" name.toList, preference? name.toList, []⟩ := by
  rw [Marks.of, quantities_of_feature h.chars]

/-- A value has no preference. -/
theorem IsBoundValue.marks {value : String} (h : IsBoundValue value) :
    Marks.of value.toList = ⟨hasWord "print" value.toList, none, quantities value.toList⟩ := by
  have hoccurs : Text.occurs "prefers-".toList value.toList = false := by
    rw [Text.occurs_eq_false_iff]
    intro hslice
    have hhyphen : isValueChar '-' = true := h.chars '-' (hslice.subset (by decide))
    exact absurd hhyphen (by decide)
  rw [Marks.of, preference?, preferenceFrom?_eq_none hoccurs]

/-- The marks of a name and a value are the same in either order. -/
theorem both_comm {name value : String} (hname : IsFeatureName name) (hvalue : IsBoundValue value) :
    (Marks.of value.toList).both (Marks.of name.toList) =
      (Marks.of name.toList).both (Marks.of value.toList) := by
  rw [hname.marks, hvalue.marks, Marks.both, Marks.both, Bool.or_comm, Option.none_or, Option.or_none,
    List.append_nil, List.nil_append]

/-! ## Comparisons -/

/-- A comparison of two operands. -/
def comparisonText (left mark right : List Char) : List Char :=
  left ++ ' ' :: (mark ++ ' ' :: right)

/-- A text in parentheses. -/
def inParens (text : List Char) : List Char := '(' :: (text ++ [')'])

theorem marks_inParens (text : List Char) : Marks.of (inParens text) = Marks.of text := by
  rw [inParens, Marks.of_cons (by decide), Marks.of_concat (by decide)]

/-- Gaps in front of a text do not count. -/
theorem marks_gaps {gaps : List Char} (hgaps : ∀ c ∈ gaps, isGap c = true) (text : List Char) :
    Marks.of (gaps ++ text) = Marks.of text := by
  induction gaps with
  | nil => rfl
  | cons c gaps ih =>
      obtain ⟨hc, hgaps⟩ := List.forall_mem_cons.1 hgaps
      rw [List.cons_append, Marks.of_cons hc, ih hgaps]

section Comparison

variable {sign sign' : Comparison} {mark mark' : List Char} (hmark : mark ∈ sign.spellings)

include hmark

theorem isGap_of_mem_spellings : ∀ c ∈ mark, isGap c = true := by
  have hall : ∀ sign : Comparison, sign.spellings.all (fun mark => mark.all isGap) = true := by
    intro sign
    cases sign with
    | less => decide
    | greater => decide
  exact List.all_eq_true.1 (List.all_eq_true.1 (hall sign) mark hmark)

theorem marks_comparison (left right : List Char) :
    Marks.of (comparisonText left mark right) = (Marks.of left).both (Marks.of right) := by
  rw [comparisonText, Marks.of_append (by decide), marks_gaps (isGap_of_mem_spellings hmark),
    Marks.of_cons (by decide)]

theorem operands_comparison {left : List Char} (hleft : ∀ c ∈ left, comparison? c = none)
    (right : List Char) :
    operands (comparisonText left mark right) =
      (left ++ [' '], (sign, (operands (' ' :: right)).1) :: (operands (' ' :: right)).2) := by
  have hspace : ∀ c ∈ left ++ [' '], comparison? c = none :=
    List.forall_mem_append.2 ⟨hleft, List.forall_mem_singleton.2 rfl⟩
  have htext : comparisonText left mark right = (left ++ [' ']) ++ (mark ++ ' ' :: right) := by
    simp [comparisonText]
  rw [htext, operands_append hspace, operands_spelling hmark rfl, List.append_nil]

/-- The markers of a comparison are its sign. -/
theorem plain_comparison {left right : List Char} {d : Char} (hd : d ∈ ['(', ')', ':'])
    (hleft : d ∉ left) (hright : d ∉ right) : d ∉ comparisonText left mark right := by
  have hgap : ∀ sign : Comparison, ∀ d ∈ ['(', ')', ':'], ∀ mark ∈ sign.spellings, d ∉ mark := by
    intro sign
    cases sign with
    | less => simp [Comparison.spellings]
    | greater => simp [Comparison.spellings]
  have hspace : d ≠ ' ' := by
    rintro rfl
    exact absurd hd (by decide)
  simp only [comparisonText, List.mem_append, List.mem_cons, not_or]
  exact ⟨hleft, hspace, hgap sign d hd mark hmark, hspace, hright⟩

end Comparison

theorem spaces_singleton : Spaces [' '] := by
  intro c hc
  rw [List.mem_singleton.1 hc]
  decide

/-- The space in front of a sign does not count. -/
theorem isFeature_concat_space (operand : List Char) : isFeature (operand ++ [' ']) = isFeature operand :=
  isFeature_spaces Text.spaces_nil spaces_singleton operand

/-- The space behind a sign does not count. -/
theorem isFeature_cons_space (operand : List Char) : isFeature (' ' :: operand) = isFeature operand := by
  have h := isFeature_spaces spaces_singleton Text.spaces_nil operand
  rwa [List.append_nil] at h

theorem boundsOf_congr {left left' right right' : List Char} (hleft : isFeature left = isFeature left')
    (hright : isFeature right = isFeature right') (sign : Comparison) :
    boundsOf left sign right = boundsOf left' sign right' := by
  unfold boundsOf
  rw [hleft, hright]

/-- Without a colon the bounds of a group are those of its comparisons. -/
theorem bounds_inParens {text : List Char} (h : ∀ d ∈ ['(', ')', ':'], d ∉ text) :
    bounds (inParens text) = chainBounds (operands text).1 (operands text).2 := by
  have hcolon : ':' ∉ inParens text := by
    simp only [inParens, List.mem_cons, List.mem_append, List.not_mem_nil, or_false, not_or]
    exact ⟨by decide, h ':' (by decide), by decide⟩
  have hgroup : ∀ c ∈ text, c ≠ '(' ∧ c ≠ ')' := by
    intro c hc
    constructor
    · rintro rfl
      exact h '(' (by decide) hc
    · rintro rfl
      exact h ')' (by decide) hc
  rw [bounds, hasFeature, hasFeature, hasFeatureFrom_of_not_mem hcolon,
    hasFeatureFrom_of_not_mem hcolon, inParens, comparisonBounds_group hgroup, Bounds.or, Bool.or_false,
    Bool.or_false]

section Bounds

variable {sign sign' : Comparison} {mark mark' left middle right : List Char}
variable (hmark : mark ∈ sign.spellings) (hleft : IsOperand left) (hright : IsOperand right)

include hleft in
theorem IsOperand.notMem {d : Char} (hd : d ∈ ['(', ')', ':']) : d ∉ left := by
  intro hmem
  refine hleft.plain d hmem ?_
  revert hd
  simp [markers]
  tauto

include hmark hleft hright

/-- A comparison sets the bound of its two operands. -/
theorem bounds_comparison :
    bounds (inParens (comparisonText left mark right)) = boundsOf left sign right := by
  rw [bounds_inParens fun d hd => plain_comparison hmark hd (hleft.notMem hd) (hright.notMem hd),
    operands_comparison hmark hleft.comparison?, operands_of_plain hright.comparison?_cons_space]
  show (boundsOf _ _ _).or {} = _
  rw [boundsOf_congr (isFeature_concat_space left) (isFeature_cons_space right), Bounds.or,
    Bool.or_false, Bool.or_false]

/-- A chain of two comparisons sets the bounds of both. -/
theorem bounds_chain (hmark' : mark' ∈ sign'.spellings) (hmiddle : IsOperand middle) :
    bounds (inParens (comparisonText left mark (comparisonText middle mark' right))) =
      (boundsOf left sign middle).or (boundsOf middle sign' right) := by
  have hmiddle' : isFeature (' ' :: middle ++ [' ']) = isFeature middle := by
    rw [isFeature_concat_space, isFeature_cons_space]
  have htext : ' ' :: comparisonText middle mark' right = comparisonText (' ' :: middle) mark' right := rfl
  rw [bounds_inParens fun d hd => plain_comparison hmark hd (hleft.notMem hd)
      (plain_comparison hmark' hd (hmiddle.notMem hd) (hright.notMem hd)),
    operands_comparison hmark hleft.comparison?, htext,
    operands_comparison hmark' hmiddle.comparison?_cons_space,
    operands_of_plain hright.comparison?_cons_space]
  show (boundsOf _ _ _).or ((boundsOf _ _ _).or {}) = _
  rw [boundsOf_congr (isFeature_concat_space left) hmiddle',
    boundsOf_congr hmiddle' (isFeature_cons_space right), Bounds.or, Bounds.or, Bool.or_false,
    Bool.or_false, Bounds.or]

end Bounds

/-! ## Prefixes -/

/-- A word is on one side of a character that is not in it. -/
theorem occurs_append_of_notMem {word : List Char} (hne : word ≠ []) {c : Char} (hc : c ∉ word)
    (a b : List Char) :
    Text.occurs word (a ++ c :: b) = (Text.occurs word a || Text.occurs word b) := by
  have hword : ∀ x ∈ word, (x != c) = true := by
    intro x hx
    rw [bne_iff_ne]
    rintro rfl
    exact hc hx
  have hstop : (c != c) = false := bne_self_eq_false c
  have hempty : word.isEmpty = false := by simpa using hne
  induction a with
  | nil =>
      have hstarts : word.isPrefixOf (c :: b) = false := by
        rw [← List.nil_append (c :: b), isPrefixOf_append_of_stop (p := fun x => x != c) hstop hword]
        cases word with
        | nil => exact absurd rfl hne
        | cons => rfl
      have hnil : Text.occurs word [] = false := hempty
      rw [List.nil_append, hnil, Text.occurs, hstarts]
  | cons x a ih =>
      have hsame := isPrefixOf_append_of_stop (p := fun x => x != c) hstop hword (x :: a) b
      rw [List.cons_append] at hsame ⊢
      rw [Text.occurs, hsame, ih, Text.occurs, Bool.or_assoc]

/-- The prefixes of names that bound a feature, without their hyphens. -/
def prefixes : List (List Char) := [['m', 'i', 'n'], ['m', 'a', 'x']]

theorem min_mem_prefixes : ['m', 'i', 'n'] ∈ prefixes := by decide

theorem max_mem_prefixes : ['m', 'a', 'x'] ∈ prefixes := by decide

/-- A bound of a name with a prefix. -/
def prefixedText (bound name value : List Char) : List Char :=
  bound ++ '-' :: (name ++ ':' :: ' ' :: value)

/-- No name with a head starts in a text that does not have the first character of the head. -/
theorem preferenceFrom?_skip {first : Char} {head a : List Char} (ha : first ∉ a) {c : Char}
    (hc : c ≠ first) (hword : isWord c = false) (before : Option Char) (b : List Char) :
    preferenceFrom? (first :: head) before (a ++ c :: b) = preferenceFrom? (first :: head) none b := by
  have hstarts : ∀ {d : Char}, d ≠ first → ∀ cs : List Char,
      (first :: head).isPrefixOf (d :: cs) = false := by
    intro d hd cs
    rw [List.isPrefixOf_cons_cons, beq_false_of_ne hd.symm, Bool.false_and]
  induction a generalizing before with
  | nil =>
      rw [List.nil_append, preferenceFrom?_cons (hstarts hc b)]
      exact preferenceFrom?_congr (isWordAt_some hword) b
  | cons x a ih =>
      rw [List.mem_cons, not_or] at ha
      rw [List.cons_append, preferenceFrom?_cons (hstarts (Ne.symm ha.1) _), ih ha.2]

section Prefixed

variable {bound : List Char} (hbound : bound ∈ prefixes) {name value : String}
variable (hname : IsFeatureName name) (hvalue : IsBoundValue value)

section Name

include hbound hname

/-- A prefix is no word that counts, and no preference starts in it. -/
theorem marks_bound : Marks.of (bound ++ '-' :: name.toList) = Marks.of name.toList := by
  have hbounds : prefixes.all (fun bound => bound.all isFeatureChar &&
      !hasWordFrom "print".toList none bound && !bound.contains 'p') = true := by decide
  have hall := List.all_eq_true.1 hbounds bound hbound
  simp only [Bool.and_eq_true, Bool.not_eq_true', List.contains_eq_mem, decide_eq_false_iff_not] at hall
  obtain ⟨⟨hfeature, hother⟩, hfirst⟩ := hall
  have hquantities : quantities (bound ++ '-' :: name.toList) = quantities name.toList := by
    rw [quantities_of_feature hname.chars, quantities_of_feature]
    exact List.forall_mem_append.2 ⟨List.all_eq_true.1 hfeature,
      List.forall_mem_cons.2 ⟨rfl, hname.chars⟩⟩
  have hprint : ∀ x ∈ "print".toList, isWord x = true := List.all_eq_true.1 (by decide)
  have hhyphen : isWord '-' = false := by decide
  have hword : hasWord "print" (bound ++ '-' :: name.toList) = hasWord "print" name.toList := by
    rw [hasWord, hasWordFrom_append hprint (by decide) hhyphen, hother, Bool.false_or, hasWord]
  have hpreference : preference? (bound ++ '-' :: name.toList) = preference? name.toList :=
    preferenceFrom?_skip hfirst (by decide) hhyphen none name.toList
  rw [Marks.of, hword, hpreference, hquantities, Marks.of]

theorem marks_prefixed (value : List Char) :
    Marks.of (prefixedText bound name.toList value) =
      (Marks.of name.toList).both (Marks.of value) := by
  have htext : prefixedText bound name.toList value =
      (bound ++ '-' :: name.toList) ++ ':' :: ' ' :: value := by
    simp [prefixedText]
  rw [htext, Marks.of_append (by decide), marks_bound hbound hname, Marks.of_cons (by decide)]

/-- A bound is found at its prefix, wherever it stands. -/
theorem hasFeatureFrom_prefixed (before : Option Char) (front value rest : List Char) :
    hasFeatureFrom (bound ++ ['-']) before
      (front ++ '(' :: (prefixedText bound name.toList value ++ rest)) = true := by
  have hfeature : ∀ x ∈ bound ++ ['-'], isFeatureChar x = true := by
    have hbounds : prefixes.all (fun bound => (bound ++ ['-']).all isFeatureChar) = true := by decide
    exact List.all_eq_true.1 (List.all_eq_true.1 hbounds bound hbound)
  have hne : name.toList ≠ [] := by
    intro hnil
    have hhead := hname.head
    rw [hnil] at hhead
    cases hhead
  have htext : prefixedText bound name.toList value ++ rest =
      (bound ++ ['-']) ++ (name.toList ++ ':' :: (' ' :: value ++ rest)) := by
    simp [prefixedText]
  have hparen : isWordAt (some '(') = false := by decide
  refine hasFeatureFrom_append ?_ front
  rw [htext]
  exact hasFeatureFrom_of_name hfeature hname.chars hne hparen _

include hvalue

/-- There is no comparison sign in a bound with a prefix. -/
theorem comparison?_prefixed :
    ∀ c ∈ inParens (prefixedText bound name.toList value.toList), comparison? c = none := by
  have hbounds : prefixes.all (fun bound => bound.all fun c => comparison? c == none) = true := by
    decide
  have hplain : ∀ c ∈ bound, comparison? c = none := fun c hc =>
    beq_iff_eq.1 (List.all_eq_true.1 (List.all_eq_true.1 hbounds bound hbound) c hc)
  intro c hc
  simp only [inParens, prefixedText, List.mem_cons, List.mem_append, List.not_mem_nil, or_false] at hc
  rcases hc with rfl | (hc | rfl | hc | rfl | rfl | hc) | rfl
  · rfl
  · exact hplain c hc
  · rfl
  · exact hname.isOperand.comparison? c hc
  · rfl
  · rfl
  · exact hvalue.isOperand.comparison? c hc
  · rfl

end Name

include hbound hvalue in
/-- The other prefix does not occur. -/
theorem occurs_prefixed {other : List Char} (hother : other ∈ prefixes) (hne : other ≠ bound)
    (hnot : Text.occurs (other ++ ['-']) name.toList = false) :
    Text.occurs (other ++ ['-']) (inParens (prefixedText bound name.toList value.toList)) = false := by
  have hfacts : prefixes.all (fun other => !(other ++ ['-']).contains '(' &&
      !(other ++ ['-']).contains ':' && !(other ++ ['-']).contains ')') = true := by decide
  have hall := List.all_eq_true.1 hfacts other hother
  simp only [Bool.and_eq_true, Bool.not_eq_true', List.contains_eq_mem, decide_eq_false_iff_not] at hall
  obtain ⟨⟨hopen, hcolon⟩, hclose⟩ := hall
  have hvalue : Text.occurs (other ++ ['-']) (' ' :: value.toList) = false := by
    rw [Text.occurs_eq_false_iff]
    intro hslice
    rcases List.mem_cons.1 (hslice.subset (List.mem_append_right other List.mem_cons_self)) with h | h
    · cases h
    · exact absurd (hvalue.chars '-' h) (by decide)
  have hstarts : Text.occurs (other ++ ['-']) (bound ++ '-' :: name.toList) =
      Text.occurs (other ++ ['-']) name.toList := by
    simp only [prefixes, List.mem_cons, List.not_mem_nil, or_false] at hbound hother
    rcases hbound with rfl | rfl <;> rcases hother with rfl | rfl
    · exact absurd rfl hne
    · rfl
    · rfl
    · exact absurd rfl hne
  have htext : inParens (prefixedText bound name.toList value.toList) =
      [] ++ '(' :: ((bound ++ '-' :: name.toList) ++ ':' :: ((' ' :: value.toList) ++ ')' :: [])) := by
    simp [inParens, prefixedText]
  have hword : other ++ ['-'] ≠ [] := by simp
  have hnil : Text.occurs (other ++ ['-']) [] = false := by simp [Text.occurs]
  rw [htext, occurs_append_of_notMem hword hopen, occurs_append_of_notMem hword hcolon,
    occurs_append_of_notMem hword hclose, hnil, hstarts, hnot, hvalue]
  rfl

end Prefixed

section Bounds

variable {name : String} (hname : IsFeatureName name)

include hname

/-- A bound with the prefix of a lower bound is a lower bound. -/
theorem bounds_min {value : String} (hvalue : IsBoundValue value) :
    bounds (inParens (prefixedText ['m', 'i', 'n'] name.toList value.toList)) = { min := true } := by
  have hmin : hasFeature "min-" (inParens (prefixedText ['m', 'i', 'n'] name.toList value.toList)) = true :=
    hasFeatureFrom_prefixed min_mem_prefixes hname none [] _ _
  have hmax : hasFeature "max-" (inParens (prefixedText ['m', 'i', 'n'] name.toList value.toList)) = false :=
    hasFeatureFrom_eq_false (occurs_prefixed min_mem_prefixes hvalue max_mem_prefixes (by decide)
      hname.not_max) none
  rw [bounds, comparisonBounds_of_plain (comparison?_prefixed min_mem_prefixes hname hvalue), hmin, hmax]
  rfl

/-- A bound with the prefix of an upper bound is an upper bound. -/
theorem bounds_max {value : String} (hvalue : IsBoundValue value) :
    bounds (inParens (prefixedText ['m', 'a', 'x'] name.toList value.toList)) = { max := true } := by
  have hmin : hasFeature "min-" (inParens (prefixedText ['m', 'a', 'x'] name.toList value.toList)) = false :=
    hasFeatureFrom_eq_false (occurs_prefixed max_mem_prefixes hvalue min_mem_prefixes (by decide)
      hname.not_min) none
  have hmax : hasFeature "max-" (inParens (prefixedText ['m', 'a', 'x'] name.toList value.toList)) = true :=
    hasFeatureFrom_prefixed max_mem_prefixes hname none [] _ _
  rw [bounds, comparisonBounds_of_plain (comparison?_prefixed max_mem_prefixes hname hvalue), hmin, hmax]
  rfl

/-- A lower and an upper bound. -/
def pairText (name low high : List Char) : List Char :=
  inParens (prefixedText ['m', 'i', 'n'] name low) ++
    ' ' :: (['a', 'n', 'd'] ++ ' ' :: inParens (prefixedText ['m', 'a', 'x'] name high))

theorem bounds_pair {low high : String} (hlow : IsBoundValue low) (hhigh : IsBoundValue high) :
    bounds (pairText name.toList low.toList high.toList) = { min := true, max := true } := by
  have hplain : ∀ c ∈ pairText name.toList low.toList high.toList, comparison? c = none := by
    rw [pairText]
    refine List.forall_mem_append.2 ⟨comparison?_prefixed min_mem_prefixes hname hlow, ?_⟩
    refine List.forall_mem_cons.2 ⟨rfl, List.forall_mem_append.2 ⟨?_, ?_⟩⟩
    · exact List.forall_mem_cons.2 ⟨rfl, List.forall_mem_cons.2 ⟨rfl, List.forall_mem_singleton.2 rfl⟩⟩
    · exact List.forall_mem_cons.2 ⟨rfl, comparison?_prefixed max_mem_prefixes hname hhigh⟩
  have hmin : hasFeature "min-" (pairText name.toList low.toList high.toList) = true := by
    have htext : pairText name.toList low.toList high.toList =
        [] ++ '(' :: (prefixedText ['m', 'i', 'n'] name.toList low.toList ++ ')' :: ' ' ::
          (['a', 'n', 'd'] ++ ' ' :: inParens (prefixedText ['m', 'a', 'x'] name.toList high.toList))) := by
      simp [pairText, inParens]
    rw [htext]
    exact hasFeatureFrom_prefixed min_mem_prefixes hname none _ _ _
  have hmax : hasFeature "max-" (pairText name.toList low.toList high.toList) = true := by
    have htext : pairText name.toList low.toList high.toList =
        (inParens (prefixedText ['m', 'i', 'n'] name.toList low.toList) ++ [' ', 'a', 'n', 'd', ' ']) ++
          '(' :: (prefixedText ['m', 'a', 'x'] name.toList high.toList ++ [')']) := by
      simp [pairText, inParens]
    rw [htext]
    exact hasFeatureFrom_prefixed max_mem_prefixes hname none _ _ _
  rw [bounds, comparisonBounds_of_plain hplain, hmin, hmax]
  rfl

/-- The marks of a pair of bounds are those of the chain of two comparisons. -/
theorem marks_pair {low high : String} (hlow : IsBoundValue low) :
    Marks.of (pairText name.toList low.toList high.toList) =
      (Marks.of low.toList).both ((Marks.of name.toList).both (Marks.of high.toList)) := by
  have hand : Marks.of ['a', 'n', 'd'] = Marks.of [] := by
    rw [Marks.of, quantities_of_feature (List.all_eq_true.1 (by decide))]
    rfl
  have hself : ∀ feature : Option (List Char), (feature.or none).or feature = feature := by
    intro feature
    rw [Option.or_none, Option.or_self]
  rw [pairText, Marks.of_append (by decide), Marks.of_append (by decide), hand, marks_inParens,
    marks_inParens, marks_prefixed min_mem_prefixes hname, marks_prefixed max_mem_prefixes hname, hname.marks,
    hlow.marks, Marks.of_nil]
  simp only [Marks.both, Bool.false_or, Option.none_or, List.nil_append, Marks.mk.injEq]
  refine ⟨?_, ?_, trivial⟩
  · rw [Bool.or_comm (hasWord "print" name.toList), Bool.or_assoc, ← Bool.or_assoc (hasWord _ name.toList),
      Bool.or_self]
  · rw [Option.or_none, ← Option.or_assoc, Option.or_self]

end Bounds

/-! ## The order of both notations -/

/-- Two conditions have the same place in the order, and the same numbers are summed for it. -/
def SamePlace (a b : String) : Prop :=
  Order.of a = Order.of b ∧ quantities (lower a.toList) = quantities (lower b.toList)

theorem samePlace_of {a b : String} {text text' : List Char} (ha : lower a.toList = text)
    (hb : lower b.toList = text') (hmarks : Marks.of text = Marks.of text')
    (hbounds : bounds text = bounds text') (hne : bounds text' ≠ {}) : SamePlace a b := by
  subst ha hb
  exact ⟨Order.of_congr hmarks hbounds (hbounds ▸ hne), (Marks.mk.inj hmarks).2.2⟩

theorem lower_inParens (text : List Char) : lower (inParens text) = inParens (lower text) := by
  rw [inParens, lower, List.map_cons, List.map_append]
  rfl

theorem lower_comparisonText (left mark right : List Char) :
    lower (comparisonText left mark right) =
      comparisonText (lower left) (lower mark) (lower right) := by
  rw [comparisonText, lower, List.map_append, List.map_cons, List.map_append, List.map_cons]
  rfl

theorem lower_prefixedText (bound name value : List Char) :
    lower (prefixedText bound name value) =
      prefixedText (lower bound) (lower name) (lower value) := by
  rw [prefixedText, lower, List.map_append, List.map_cons, List.map_append, List.map_cons, List.map_cons]
  rfl

theorem lower_pairText (name low high : List Char) :
    lower (pairText name low high) = pairText (lower name) (lower low) (lower high) := by
  have hand : lower [' ', 'a', 'n', 'd', ' '] = [' ', 'a', 'n', 'd', ' '] := by decide
  have htext : ∀ name low high : List Char, pairText name low high =
      inParens (prefixedText ['m', 'i', 'n'] name low) ++ ([' ', 'a', 'n', 'd', ' '] ++
        inParens (prefixedText ['m', 'a', 'x'] name high)) := fun _ _ _ => rfl
  rw [htext, Text.lower_append, Text.lower_append, lower_inParens, lower_inParens, lower_prefixedText,
    lower_prefixedText, hand, htext]
  rfl

theorem lower_of_mem_spellings {sign : Comparison} {mark : List Char} (hmark : mark ∈ sign.spellings) :
    lower mark = mark := by
  have hall : ∀ sign : Comparison, sign.spellings.all (fun mark => lower mark == mark) = true := by
    intro sign
    cases sign with
    | less => decide
    | greater => decide
  exact beq_iff_eq.1 (List.all_eq_true.1 (hall sign) mark hmark)

/-- The bound of a comparison whose left operand is a feature. -/
theorem boundsOf_left {left : List Char} (h : isFeature left = true) (right : List Char) :
    boundsOf left .greater right = { min := true } ∧ boundsOf left .less right = { max := true } := by
  unfold boundsOf
  rw [h]
  exact ⟨rfl, rfl⟩

/-- The bound of a comparison whose right operand is a feature and the left is not. -/
theorem boundsOf_right {left right : List Char} (hleft : isFeature left = false)
    (hright : isFeature right = true) :
    boundsOf left .greater right = { max := true } ∧ boundsOf left .less right = { min := true } := by
  unfold boundsOf
  rw [hleft, hright]
  exact ⟨rfl, rfl⟩

/-- A comparison of a name and a value, in either order, has the place of a bound with a prefix if it sets
the same bound. -/
theorem samePlace_comparison {name value left right : String} (hname : IsFeatureName name)
    (hvalue : IsBoundValue value) (hleft : IsOperand left.toList) (hright : IsOperand right.toList)
    (hsame : (Marks.of left.toList).both (Marks.of right.toList) =
      (Marks.of name.toList).both (Marks.of value.toList))
    {sign : Comparison} (mark : List Char) (hmark : mark ∈ sign.spellings) {bound : List Char}
    (hbound : bound ∈ prefixes) {b : Bounds}
    (hprefixed : bounds (inParens (prefixedText bound name.toList value.toList)) = b)
    (hcompared : boundsOf left.toList sign right.toList = b) (hne : b ≠ {})
    {condition condition' : String}
    (hcondition : condition.toList = inParens (comparisonText left.toList mark right.toList))
    (hcondition' : condition'.toList = inParens (prefixedText bound name.toList value.toList)) :
    SamePlace condition condition' := by
  have hall : prefixes.all (fun bound => lower bound == bound) = true := by decide
  have hlower := beq_iff_eq.1 (List.all_eq_true.1 hall bound hbound)
  have htext : lower condition.toList = inParens (comparisonText left.toList mark right.toList) := by
    rw [hcondition, lower_inParens, lower_comparisonText, hleft.lower_eq, hright.lower_eq,
      lower_of_mem_spellings hmark]
  have htext' : lower condition'.toList =
      inParens (prefixedText bound name.toList value.toList) := by
    rw [hcondition', lower_inParens, lower_prefixedText, hlower, hname.isOperand.lower_eq,
      hvalue.isOperand.lower_eq]
  refine samePlace_of htext htext' ?_ ?_ ?_
  · rw [marks_inParens, marks_inParens, marks_comparison hmark, marks_prefixed hbound hname, hsame]
  · rw [hprefixed, bounds_comparison hmark hleft hright, hcompared]
  · rwa [hprefixed]

/-- A chain of two comparisons has the place of a pair of bounds with prefixes. -/
theorem samePlace_chain {name low high : String} (hname : IsFeatureName name) (hlow : IsBoundValue low)
    (hhigh : IsBoundValue high) (mark : List Char) (hmark : mark ∈ Comparison.less.spellings)
    {condition condition' : String}
    (hcondition : condition.toList =
      inParens (comparisonText low.toList mark (comparisonText name.toList mark high.toList)))
    (hcondition' : condition'.toList = pairText name.toList low.toList high.toList) :
    SamePlace condition condition' := by
  have hname' := hname.isOperand
  have hlow' := hlow.isOperand
  have hhigh' := hhigh.isOperand
  have htext : lower condition.toList =
      inParens (comparisonText low.toList mark (comparisonText name.toList mark high.toList)) := by
    rw [hcondition, lower_inParens, lower_comparisonText, lower_comparisonText, hname'.lower_eq,
      hlow'.lower_eq, hhigh'.lower_eq, lower_of_mem_spellings hmark]
  have htext' : lower condition'.toList = pairText name.toList low.toList high.toList := by
    rw [hcondition', lower_pairText, hname'.lower_eq, hlow'.lower_eq, hhigh'.lower_eq]
  refine samePlace_of htext htext' ?_ ?_ ?_
  · rw [marks_pair hname hlow, marks_inParens, marks_comparison hmark, marks_comparison hmark]
  · rw [bounds_pair hname hlow hhigh, bounds_chain hmark hlow' hhigh' hmark hname',
      (boundsOf_right hlow.isFeature hname.isFeature).2, (boundsOf_left hname.isFeature _).2]
    rfl
  · rw [bounds_pair hname hlow hhigh]
    exact fun h => by cases h

/-- Comparisons that bound a feature from below, from above or on both sides are ordered like bounds with
prefixes, whichever side the feature is on and whether or not the bound itself is included. -/
theorem samePlace_of_notation {name value low high : String} (hname : IsFeatureName name)
    (hvalue : IsBoundValue value) (hlow : IsBoundValue low) (hhigh : IsBoundValue high) :
    (∀ condition ∈ ["(" ++ name ++ " >= " ++ value ++ ")", "(" ++ name ++ " > " ++ value ++ ")",
          "(" ++ value ++ " <= " ++ name ++ ")", "(" ++ value ++ " < " ++ name ++ ")"],
        SamePlace condition ("(min-" ++ name ++ ": " ++ value ++ ")")) ∧
      (∀ condition ∈ ["(" ++ name ++ " <= " ++ value ++ ")", "(" ++ name ++ " < " ++ value ++ ")",
          "(" ++ value ++ " >= " ++ name ++ ")", "(" ++ value ++ " > " ++ name ++ ")"],
        SamePlace condition ("(max-" ++ name ++ ": " ++ value ++ ")")) ∧
      ∀ condition ∈ ["(" ++ low ++ " <= " ++ name ++ " <= " ++ high ++ ")",
          "(" ++ low ++ " < " ++ name ++ " < " ++ high ++ ")"],
        SamePlace condition
          ("(min-" ++ name ++ ": " ++ low ++ ") and (max-" ++ name ++ ": " ++ high ++ ")") := by
  have hname' := hname.isOperand
  have hvalue' := hvalue.isOperand
  have hcomm := both_comm hname hvalue
  have hmin := bounds_min hname hvalue
  have hmax := bounds_max hname hvalue
  obtain ⟨hgreater, hless⟩ := boundsOf_left hname.isFeature value.toList
  obtain ⟨hgreater', hless'⟩ := boundsOf_right hvalue.isFeature hname.isFeature
  have hlower : ("(min-" ++ name ++ ": " ++ value ++ ")").toList =
      inParens (prefixedText ['m', 'i', 'n'] name.toList value.toList) := by
    simp [inParens, prefixedText]
  have hupper : ("(max-" ++ name ++ ": " ++ value ++ ")").toList =
      inParens (prefixedText ['m', 'a', 'x'] name.toList value.toList) := by
    simp [inParens, prefixedText]
  refine ⟨?_, ?_, ?_⟩
  · simp only [List.forall_mem_cons, List.not_mem_nil, false_implies, implies_true, and_true]
    refine ⟨?_, ?_, ?_, ?_⟩
    · exact samePlace_comparison hname hvalue hname' hvalue' rfl ['>', '='] (by decide)
        min_mem_prefixes hmin hgreater (by decide) (by simp [inParens, comparisonText]) hlower
    · exact samePlace_comparison hname hvalue hname' hvalue' rfl ['>'] (by decide)
        min_mem_prefixes hmin hgreater (by decide) (by simp [inParens, comparisonText]) hlower
    · exact samePlace_comparison hname hvalue hvalue' hname' hcomm ['<', '='] (by decide)
        min_mem_prefixes hmin hless' (by decide) (by simp [inParens, comparisonText]) hlower
    · exact samePlace_comparison hname hvalue hvalue' hname' hcomm ['<'] (by decide)
        min_mem_prefixes hmin hless' (by decide) (by simp [inParens, comparisonText]) hlower
  · simp only [List.forall_mem_cons, List.not_mem_nil, false_implies, implies_true, and_true]
    refine ⟨?_, ?_, ?_, ?_⟩
    · exact samePlace_comparison hname hvalue hname' hvalue' rfl ['<', '='] (by decide)
        max_mem_prefixes hmax hless (by decide) (by simp [inParens, comparisonText]) hupper
    · exact samePlace_comparison hname hvalue hname' hvalue' rfl ['<'] (by decide)
        max_mem_prefixes hmax hless (by decide) (by simp [inParens, comparisonText]) hupper
    · exact samePlace_comparison hname hvalue hvalue' hname' hcomm ['>', '='] (by decide)
        max_mem_prefixes hmax hgreater' (by decide) (by simp [inParens, comparisonText]) hupper
    · exact samePlace_comparison hname hvalue hvalue' hname' hcomm ['>'] (by decide)
        max_mem_prefixes hmax hgreater' (by decide) (by simp [inParens, comparisonText]) hupper
  · have hpair : ("(min-" ++ name ++ ": " ++ low ++ ") and (max-" ++ name ++ ": " ++ high ++ ")").toList =
        pairText name.toList low.toList high.toList := by
      simp [pairText, inParens, prefixedText]
    simp only [List.forall_mem_cons, List.not_mem_nil, false_implies, implies_true, and_true]
    refine ⟨?_, ?_⟩
    · exact samePlace_chain hname hlow hhigh ['<', '='] (by decide)
        (by simp [inParens, comparisonText]) hpair
    · exact samePlace_chain hname hlow hhigh ['<'] (by decide)
        (by simp [inParens, comparisonText]) hpair

/-- Both notations of a bound, where the name holds words that would count on their own. -/
theorem samePlace_of_notation_words :
    IsFeatureName "prefers-print-all" ∧ IsBoundValue ".5rem" ∧ IsBoundValue "1.5.2em%" ∧
      IsBoundValue "40" ∧
      SamePlace "(.5rem < prefers-print-all)" "(min-prefers-print-all: .5rem)" ∧
      SamePlace "(prefers-print-all <= .5rem)" "(max-prefers-print-all: .5rem)" ∧
      SamePlace "(1.5.2em% < prefers-print-all < 40)"
        "(min-prefers-print-all: 1.5.2em%) and (max-prefers-print-all: 40)" := by
  have hname : IsFeatureName "prefers-print-all" := by decide
  have hvalue : IsBoundValue ".5rem" := by decide
  have hlow : IsBoundValue "1.5.2em%" := by decide
  have hhigh : IsBoundValue "40" := by decide
  obtain ⟨hmin, hmax, hrange⟩ := samePlace_of_notation hname hvalue hlow hhigh
  exact ⟨hname, hvalue, hlow, hhigh, hmin _ (by decide), hmax _ (by decide), hrange _ (by decide)⟩

end Stylesheet.Media
