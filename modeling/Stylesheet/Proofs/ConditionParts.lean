import Stylesheet.Media.Order
import Stylesheet.Proofs.DeclarationText

/-!
# Parts of a media condition

What a media condition says can be read off its parts.  A *gap* is a character that belongs to no word, no
feature name and no number, such as a space, a colon, a parenthesis or a comparison sign.  A gap cuts a
condition in two, and words, preferences and numbers are those of the one part and then those of the other
(`Marks.of_append`).

The bounds that comparisons set are those of the groups, and in a group a comparison sign cuts as well
(`operands_append`, `operands_spelling`).  Bounds in prefix notation are set where a name that starts with
the head stands in front of a colon (`hasFeatureFrom_of_name`), and nowhere where the head does not occur
(`hasFeatureFrom_eq_false`) or where there is no colon (`hasFeatureFrom_of_not_mem`).

The place of a block in the order comes from the marks and the bounds of its condition (`Order.of_congr`).
-/

namespace Stylesheet.Media

open Stylesheet.Text (headIs isSpace trim lower Spaces)
open Stylesheet.Unicode (isDecimal isWord isWordAt)

/-! ## Classes that stop -/

section Stop

/-- What stands behind a text that is in front. -/
theorem drop_append_of_isPrefixOf {word a : List Char} (h : word.isPrefixOf a = true) (b : List Char) :
    (a ++ b).drop word.length = a.drop word.length ++ b := by
  obtain ⟨rest, rfl⟩ := List.isPrefixOf_iff_prefix.1 h
  rw [List.append_assoc, List.drop_left, List.drop_left]

variable {p : Char → Bool} {c : Char} (hc : p c = false)

include hc

/-- A run of characters of a class ends at a character that is not in it. -/
theorem takeWhile_append_of_stop (a b : List Char) :
    (a ++ c :: b).takeWhile p = a.takeWhile p := by
  induction a with
  | nil => rw [List.nil_append, List.takeWhile_cons_of_neg (by simp [hc])]; rfl
  | cons x a ih => rw [List.cons_append, List.takeWhile_cons, List.takeWhile_cons, ih]

theorem headIs_append_of_stop (a b : List Char) : headIs p (a ++ c :: b) = headIs p a := by
  cases a with
  | nil => exact hc
  | cons => rfl

/-- A text of characters of a class is no longer in front where another character comes. -/
theorem isPrefixOf_append_of_stop {word : List Char} (hword : ∀ x ∈ word, p x = true)
    (a b : List Char) : word.isPrefixOf (a ++ c :: b) = word.isPrefixOf a := by
  induction word generalizing a with
  | nil => rw [List.isPrefixOf_nil_left, List.isPrefixOf_nil_left]
  | cons x word ih =>
      obtain ⟨hx, hword⟩ := List.forall_mem_cons.1 hword
      cases a with
      | nil =>
          have hne : (x == c) = false := by
            rw [beq_eq_false_iff_ne]
            rintro rfl
            rw [hc] at hx
            cases hx
          rw [List.nil_append, List.isPrefixOf_cons_cons, hne]
          rfl
      | cons y a =>
          rw [List.cons_append, List.isPrefixOf_cons_cons, List.isPrefixOf_cons_cons, ih hword]

end Stop

/-! ## Words -/

/-- A character that belongs to no word is like the end of a text. -/
theorem isWordAt_some {c : Char} (hc : isWord c = false) : isWordAt (some c) = isWordAt none := hc

/-- Of what stands before a text only counts whether it is a word character. -/
theorem hasWordFrom_congr (word : List Char) {before before' : Option Char}
    (h : isWordAt before = isWordAt before') (cs : List Char) :
    hasWordFrom word before cs = hasWordFrom word before' cs := by
  cases cs with
  | nil => rfl
  | cons c cs => rw [hasWordFrom, hasWordFrom, h]

/-- A word is on one side of a character that belongs to no word. -/
theorem hasWordFrom_append {word : List Char} (hword : ∀ x ∈ word, isWord x = true) (hne : word ≠ [])
    {c : Char} (hc : isWord c = false) (before : Option Char) (a b : List Char) :
    hasWordFrom word before (a ++ c :: b) =
      (hasWordFrom word before a || hasWordFrom word none b) := by
  have hhead : ∀ a : List Char, isWordAt (a ++ c :: b).head? = isWordAt a.head? := by
    intro a
    cases a with
    | nil => exact hc
    | cons => rfl
  induction a generalizing before with
  | nil =>
      have hstarts : word.isPrefixOf (c :: b) = false := by
        rw [← List.nil_append (c :: b), isPrefixOf_append_of_stop hc hword]
        cases word with
        | nil => exact absurd rfl hne
        | cons => rfl
      have hcons : hasWordFrom word before (c :: b) = hasWordFrom word (some c) b := by
        rw [hasWordFrom, hstarts, Bool.and_false, Bool.false_and, Bool.false_or]
      have hnil : hasWordFrom word before [] = false := rfl
      rw [List.nil_append, hcons, hnil, Bool.false_or]
      exact hasWordFrom_congr word (isWordAt_some hc) b
  | cons x a ih =>
      have hsame : (word.isPrefixOf (x :: a ++ c :: b) &&
            !isWordAt ((x :: a ++ c :: b).drop word.length).head?) =
          (word.isPrefixOf (x :: a) && !isWordAt ((x :: a).drop word.length).head?) := by
        rw [isPrefixOf_append_of_stop hc hword]
        cases hstarts : word.isPrefixOf (x :: a) with
        | false => rfl
        | true => rw [drop_append_of_isPrefixOf hstarts, hhead]
      rw [List.cons_append] at hsame ⊢
      rw [hasWordFrom, ih, hasWordFrom, Bool.and_assoc, hsame, Bool.and_assoc, Bool.or_assoc]

/-! ## Preferences -/

section Features

variable {head : List Char} (hhead : ∀ x ∈ head, isFeatureChar x = true)

include hhead in
theorem featureAt?_append {c : Char} (hc : isFeatureChar c = false) (a b : List Char) :
    featureAt? head (a ++ c :: b) = featureAt? head a := by
  rw [featureAt?, isPrefixOf_append_of_stop hc hhead, takeWhile_append_of_stop hc, featureAt?]
  cases hstarts : head.isPrefixOf a with
  | false => rfl
  | true => rw [drop_append_of_isPrefixOf hstarts, headIs_append_of_stop hc]

theorem preferenceFrom?_congr {before before' : Option Char} (h : isWordAt before = isWordAt before')
    (cs : List Char) : preferenceFrom? head before cs = preferenceFrom? head before' cs := by
  cases cs with
  | nil => rfl
  | cons c cs => rw [preferenceFrom?, preferenceFrom?, h]

/-- No name starts with a character that is not the first of the head. -/
theorem preferenceFrom?_cons {c : Char} {cs : List Char} (h : head.isPrefixOf (c :: cs) = false)
    (before : Option Char) : preferenceFrom? head before (c :: cs) = preferenceFrom? head (some c) cs := by
  have hnone : featureAt? head (c :: cs) = none := by
    rw [featureAt?, h]
    rfl
  rw [preferenceFrom?, hnone, ite_self]

include hhead in
/-- The first preference in front of a gap comes before those behind it. -/
theorem preferenceFrom?_append (hne : head ≠ []) {c : Char} (hc : isFeatureChar c = false)
    (hword : isWord c = false) (before : Option Char) (a b : List Char) :
    preferenceFrom? head before (a ++ c :: b) =
      (preferenceFrom? head before a).or (preferenceFrom? head none b) := by
  induction a generalizing before with
  | nil =>
      have hstarts : head.isPrefixOf (c :: b) = false := by
        rw [← List.nil_append (c :: b), isPrefixOf_append_of_stop hc hhead]
        cases head with
        | nil => exact absurd rfl hne
        | cons => rfl
      rw [List.nil_append, preferenceFrom?_cons hstarts, preferenceFrom?, Option.none_or]
      exact preferenceFrom?_congr (isWordAt_some hword) b
  | cons x a ih =>
      have hsame := featureAt?_append hhead hc (x :: a) b
      rw [List.cons_append] at hsame ⊢
      rw [preferenceFrom?, hsame, ih, preferenceFrom?]
      cases if isWordAt before then none else featureAt? head (x :: a) with
      | none => rfl
      | some name => rfl

/-- A name with a head is in a text only if the head occurs there. -/
theorem preferenceFrom?_eq_none {cs : List Char} (h : Text.occurs head cs = false)
    (before : Option Char) : preferenceFrom? head before cs = none := by
  induction cs generalizing before with
  | nil => rfl
  | cons c cs ih =>
      rw [Text.occurs, Bool.or_eq_false_iff] at h
      rw [preferenceFrom?_cons h.1, ih h.2]

/-! ## Bounds in prefix notation -/

/-- There is no bound by a name with a head where the head does not occur. -/
theorem hasFeatureFrom_eq_false {cs : List Char} (h : Text.occurs head cs = false)
    (before : Option Char) : hasFeatureFrom head before cs = false := by
  induction cs generalizing before with
  | nil => rfl
  | cons c cs ih =>
      rw [Text.occurs, Bool.or_eq_false_iff] at h
      have hnone : featureAt? head (c :: cs) = none := by
        rw [featureAt?, h.1]
        rfl
      rw [hasFeatureFrom, hnone, ih h.2, Bool.and_false, Bool.or_false]

/-- There is no bound in prefix notation without a colon. -/
theorem hasFeatureFrom_of_not_mem {cs : List Char} (h : ':' ∉ cs) (before : Option Char) :
    hasFeatureFrom head before cs = false := by
  induction cs generalizing before with
  | nil => rfl
  | cons c cs ih =>
      have hcolon : ∀ n, headIs (· == ':') (((c :: cs).drop n).dropWhile isSpace) = false := by
        intro n
        have hnot : ':' ∉ ((c :: cs).drop n).dropWhile isSpace := fun hmem =>
          h (List.mem_of_mem_drop ((List.dropWhile_sublist _).subset hmem))
        cases hrest : ((c :: cs).drop n).dropWhile isSpace with
        | nil => rfl
        | cons d ds =>
            rw [hrest] at hnot
            exact beq_false_of_ne fun heq => hnot (heq ▸ List.mem_cons_self)
      rw [hasFeatureFrom, ih (fun hmem => h (List.mem_cons_of_mem c hmem)), Bool.or_false,
        Bool.and_eq_false_imp]
      intro _
      cases featureAt? head (c :: cs) with
      | none => rfl
      | some name => exact hcolon _

/-- What stands in front takes no bound away. -/
theorem hasFeatureFrom_append {before : Option Char} {c : Char} {b : List Char}
    (h : hasFeatureFrom head (some c) b = true) (a : List Char) :
    hasFeatureFrom head before (a ++ c :: b) = true := by
  induction a generalizing before with
  | nil => rw [List.nil_append, hasFeatureFrom, h, Bool.or_true]
  | cons x a ih => rw [List.cons_append, hasFeatureFrom, ih, Bool.or_true]

include hhead in
/-- A name with a head and a colon behind it is a bound. -/
theorem hasFeatureFrom_of_name {name : List Char} (hname : ∀ x ∈ name, isFeatureChar x = true)
    (hne : name ≠ []) {before : Option Char} (hbefore : isWordAt before = false) (rest : List Char) :
    hasFeatureFrom head before (head ++ (name ++ ':' :: rest)) = true := by
  have hcolon : isFeatureChar ':' = false := by decide
  have hall : ∀ x ∈ head ++ name, isFeatureChar x = true := List.forall_mem_append.2 ⟨hhead, hname⟩
  have hfeature : featureAt? head (head ++ (name ++ ':' :: rest)) = some (head ++ name) := by
    have hstarts : head.isPrefixOf (head ++ name) = true :=
      List.isPrefixOf_iff_prefix.2 (List.prefix_append head name)
    have hgoesOn : headIs isFeatureChar name = true := by
      cases name with
      | nil => exact absurd rfl hne
      | cons x name => exact hname x List.mem_cons_self
    rw [← List.append_assoc, featureAt?_append hhead hcolon, featureAt?, hstarts, List.drop_left,
      hgoesOn, List.takeWhile_eq_self_iff.2 hall]
    rfl
  have hrest : (head ++ (name ++ ':' :: rest)).drop (head ++ name).length = ':' :: rest := by
    rw [← List.append_assoc, List.drop_left]
  cases htext : head ++ (name ++ ':' :: rest) with
  | nil => simp at htext
  | cons c cs =>
      rw [htext] at hfeature hrest
      rw [hasFeatureFrom, hbefore, hfeature]
      dsimp only
      rw [hrest]
      rfl

end Features

/-! ## Numbers -/

/-- The digits behind a point at the start of a text. -/
def fractionAt : List Char → List Char
  | '.' :: after => after.takeWhile isDecimal
  | _ => []

/-- How many characters a point and the digits behind it take. -/
def pointLength (fraction : List Char) : Nat := if fraction.isEmpty then 0 else fraction.length + 1

theorem quantityAt?_eq (cs : List Char) :
    quantityAt? cs =
      if (cs.takeWhile isDecimal).isEmpty &&
          (fractionAt (cs.drop (cs.takeWhile isDecimal).length)).isEmpty then none
      else
        some ⟨cs.takeWhile isDecimal, fractionAt (cs.drop (cs.takeWhile isDecimal).length),
          ((cs.drop (cs.takeWhile isDecimal).length).drop
            (pointLength (fractionAt (cs.drop (cs.takeWhile isDecimal).length)))).takeWhile isUnitChar⟩ :=
  rfl

theorem pointLength_fractionAt (cs : List Char) : pointLength (fractionAt cs) ≤ cs.length := by
  rw [fractionAt.eq_def]
  split
  · next after =>
      have hle : (after.takeWhile isDecimal).length ≤ after.length := (List.takeWhile_sublist _).length_le
      rw [pointLength, List.length_cons]
      split
      · omega
      · omega
  · exact Nat.zero_le _

theorem length_le_of_quantityAt? {cs : List Char} {q : Quantity} (h : quantityAt? cs = some q) :
    q.length ≤ cs.length := by
  have hwhole : (cs.takeWhile isDecimal).length ≤ cs.length := (List.takeWhile_sublist _).length_le
  rw [quantityAt?_eq] at h
  split at h
  · cases h
  · obtain rfl := Option.some.inj h
    generalize hrest : cs.drop (cs.takeWhile isDecimal).length = rest
    have hlength : rest.length = cs.length - (cs.takeWhile isDecimal).length := by
      rw [← hrest, List.length_drop]
    have hpoint := pointLength_fractionAt rest
    have hunit : ((rest.drop (pointLength (fractionAt rest))).takeWhile isUnitChar).length ≤
        (rest.drop (pointLength (fractionAt rest))).length := (List.takeWhile_sublist _).length_le
    rw [List.length_drop] at hunit
    rw [Quantity.length]
    dsimp only
    rw [← pointLength]
    omega

section Gap

variable {c : Char} (hdecimal : isDecimal c = false) (hpoint : c ≠ '.') (hunit : isUnitChar c = false)

include hdecimal hpoint

theorem fractionAt_append (a b : List Char) : fractionAt (a ++ c :: b) = fractionAt a := by
  cases a with
  | nil =>
      rw [List.nil_append, fractionAt.eq_def]
      split
      · next after heq => exact absurd (List.cons.inj heq).1 hpoint
      · rfl
  | cons x a =>
      by_cases hx : x = '.'
      · subst hx
        exact takeWhile_append_of_stop hdecimal a b
      · have hnone : ∀ tail, fractionAt (x :: tail) = [] := by
          intro tail
          rw [fractionAt.eq_def]
          split
          · next after heq => exact absurd (List.cons.inj heq).1 hx
          · rfl
        rw [List.cons_append, hnone, hnone]

include hunit

/-- A number ends at the latest in front of a character that belongs to no number. -/
theorem quantityAt?_append (a b : List Char) : quantityAt? (a ++ c :: b) = quantityAt? a := by
  have hdrop : (a ++ c :: b).drop (a.takeWhile isDecimal).length =
      a.drop (a.takeWhile isDecimal).length ++ c :: b :=
    List.drop_append_of_le_length (List.takeWhile_sublist _).length_le
  rw [quantityAt?_eq, takeWhile_append_of_stop hdecimal, hdrop, fractionAt_append hdecimal hpoint,
    List.drop_append_of_le_length (pointLength_fractionAt _), takeWhile_append_of_stop hunit,
    quantityAt?_eq]

/-- The numbers in front of a gap and then those behind it. -/
theorem quantitiesFrom_append (skip : Nat) (a b : List Char) (hskip : skip ≤ a.length) :
    quantitiesFrom skip (a ++ c :: b) = quantitiesFrom skip a ++ quantitiesFrom 0 b := by
  induction a generalizing skip with
  | nil =>
      obtain rfl : skip = 0 := Nat.le_zero.1 hskip
      have hnone : quantityAt? (c :: b) = none := by
        rw [← List.nil_append (c :: b), quantityAt?_append hdecimal hpoint hunit]
        rfl
      show quantitiesFrom 0 (c :: b) = quantitiesFrom 0 b
      rw [quantitiesFrom, hnone]
  | cons x a ih =>
      cases skip with
      | succ skip =>
          rw [List.cons_append, quantitiesFrom, quantitiesFrom, ih skip (Nat.le_of_succ_le_succ hskip)]
      | zero =>
          have hsame := quantityAt?_append hdecimal hpoint hunit (x :: a) b
          rw [List.cons_append] at hsame ⊢
          rw [quantitiesFrom, hsame, quantitiesFrom]
          cases hq : quantityAt? (x :: a) with
          | none => exact ih 0 (Nat.zero_le _)
          | some q =>
              have hle := length_le_of_quantityAt? hq
              rw [List.length_cons] at hle
              dsimp only
              rw [ih (q.length - 1) (by omega), List.cons_append]

end Gap

/-- There is no number in a text without digits and points. -/
theorem quantities_eq_nil {cs : List Char} (h : ∀ c ∈ cs, isDecimal c = false ∧ c ≠ '.') :
    quantities cs = [] := by
  rw [quantities]
  induction cs with
  | nil => rfl
  | cons c cs ih =>
      obtain ⟨⟨hdecimal, hpoint⟩, hcs⟩ := List.forall_mem_cons.1 h
      have hnone : quantityAt? (c :: cs) = none := by
        rw [← List.nil_append (c :: cs), quantityAt?_eq, takeWhile_append_of_stop hdecimal,
          List.takeWhile_nil, List.length_nil, List.drop_zero, fractionAt_append hdecimal hpoint]
        rfl
      rw [quantitiesFrom, hnone]
      exact ih hcs

/-! ## Marks -/

/-- A character that belongs to no word, no feature name and no number. -/
def isGap (c : Char) : Bool :=
  !isWord c && !isFeatureChar c && !isDecimal c && c != '.' && !isUnitChar c

/-- What a condition says apart from bounds, `screen` and `all`. -/
structure Marks where
  /-- Is the word `print` in it? -/
  print : Bool
  /-- Its first preference. -/
  preference : Option (List Char)
  /-- Its numbers. -/
  quantities : List Quantity

namespace Marks

/-- The marks of a condition. -/
def of (text : List Char) : Marks := ⟨hasWord "print" text, preference? text, Media.quantities text⟩

/-- The marks of two parts. -/
def both (a b : Marks) : Marks :=
  ⟨a.print || b.print, a.preference.or b.preference, a.quantities ++ b.quantities⟩

theorem of_nil : of [] = ⟨false, none, []⟩ := rfl

/-- A gap cuts a condition in two. -/
theorem of_append {c : Char} (hc : isGap c = true) (a b : List Char) :
    of (a ++ c :: b) = (of a).both (of b) := by
  simp only [isGap, Bool.and_eq_true, Bool.not_eq_true', bne_iff_ne, ne_eq] at hc
  obtain ⟨⟨⟨⟨hword, hfeature⟩, hdecimal⟩, hpoint⟩, hunit⟩ := hc
  have hprint : ∀ x ∈ "print".toList, isWord x = true := List.all_eq_true.1 (by decide)
  have hprefers : ∀ x ∈ "prefers-".toList, isFeatureChar x = true :=
    List.all_eq_true.1 (by decide)
  simp only [of, both, hasWord, preference?, Media.quantities,
    hasWordFrom_append hprint (by decide) hword,
    preferenceFrom?_append hprefers (by decide) hfeature hword,
    quantitiesFrom_append hdecimal hpoint hunit 0 a b (Nat.zero_le _)]

/-- A gap in front of a condition does not count. -/
theorem of_cons {c : Char} (hc : isGap c = true) (b : List Char) : of (c :: b) = of b := by
  have h := of_append hc [] b
  rwa [List.nil_append, of_nil, both, Bool.false_or, Option.none_or, List.nil_append] at h

theorem both_nil (a : Marks) : a.both (of []) = a := by
  rw [of_nil, both, Bool.or_false, Option.or_none, List.append_nil]

/-- A gap behind a condition does not count. -/
theorem of_concat {c : Char} (hc : isGap c = true) (a : List Char) : of (a ++ [c]) = of a := by
  rw [of_append hc, both_nil]

end Marks

/-! ## Comparisons -/

/-- Behind an opening parenthesis stands a group if it is closed. -/
theorem groupsFrom_some {x : List Char} (hx : ∀ c ∈ x, c ≠ '(' ∧ c ≠ ')') (inner rest : List Char) :
    groupsFrom (some inner) (x ++ ')' :: rest) = (inner ++ x) :: groupsFrom none rest := by
  induction x generalizing inner with
  | nil => rw [List.append_nil]; rfl
  | cons c x ih =>
      obtain ⟨⟨hopen, hclose⟩, hx⟩ := List.forall_mem_cons.1 hx
      rw [List.cons_append, groupsFrom, if_neg (by simpa using hopen), if_neg (by simpa using hclose),
        Option.map_some, ih hx, List.append_assoc]
      rfl

theorem groups_group {x : List Char} (hx : ∀ c ∈ x, c ≠ '(' ∧ c ≠ ')') :
    groups ('(' :: (x ++ [')'])) = [x] := groupsFrom_some hx [] []

/-- The bounds of a condition that is one group. -/
theorem comparisonBounds_group {x : List Char} (hx : ∀ c ∈ x, c ≠ '(' ∧ c ≠ ')') :
    comparisonBounds ('(' :: (x ++ [')'])) = chainBounds (operands x).1 (operands x).2 := by
  rw [comparisonBounds, groups_group hx]
  show Bounds.or ⟨false, false⟩ _ = _
  rw [Bounds.or, Bool.false_or, Bool.false_or]

/-- Up to the first sign all belongs to the first operand. -/
theorem operands_append {a : List Char} (ha : ∀ c ∈ a, comparison? c = none) (b : List Char) :
    operands (a ++ b) = (a ++ (operands b).1, (operands b).2) := by
  induction a with
  | nil => rfl
  | cons c a ih =>
      obtain ⟨hc, ha⟩ := List.forall_mem_cons.1 ha
      rw [List.cons_append, operands, ih ha, hc]
      rfl

theorem operands_of_plain {a : List Char} (ha : ∀ c ∈ a, comparison? c = none) :
    operands a = (a, []) := by
  have h := operands_append ha []
  rwa [List.append_nil, operands, List.append_nil] at h

/-- The ways to write a comparison sign. -/
def Comparison.spellings : Comparison → List (List Char)
  | .less => [['<'], ['<', '=']]
  | .greater => [['>'], ['>', '=']]

/-- A sign ends the operand in front of it. -/
theorem operands_spelling {sign : Comparison} {mark : List Char} (hmark : mark ∈ sign.spellings)
    {b : List Char} (hb : headIs (· == '=') b = false) :
    operands (mark ++ b) = ([], (sign, (operands b).1) :: (operands b).2) := by
  have hplain : ∀ c ∈ ['='], comparison? c = none := List.forall_mem_singleton.2 rfl
  have hequal : operands ('=' :: b) = ('=' :: (operands b).1, (operands b).2) :=
    operands_append hplain b
  cases sign with
  | less =>
      rcases List.mem_cons.1 hmark with rfl | hmark
      · simp [operands, comparison?, hb]
      · rw [List.mem_singleton.1 hmark, List.cons_append, operands, List.singleton_append, hequal]
        rfl
  | greater =>
      rcases List.mem_cons.1 hmark with rfl | hmark
      · simp [operands, comparison?, hb]
      · rw [List.mem_singleton.1 hmark, List.cons_append, operands, List.singleton_append, hequal]
        rfl

/-- Spaces around an operand do not count. -/
theorem isFeature_spaces {a b : List Char} (ha : Spaces a) (hb : Spaces b) (operand : List Char) :
    isFeature (a ++ operand ++ b) = isFeature operand := by
  rw [isFeature, Text.trim_spaces ha hb, isFeature]

/-- There are no comparisons without a sign. -/
theorem comparisonBounds_of_plain {cs : List Char} (h : ∀ c ∈ cs, comparison? c = none) :
    comparisonBounds cs = {} := by
  have hgroups : ∀ (inner : Option (List Char)) (cs : List Char),
      (∀ c ∈ cs, comparison? c = none) → (∀ x ∈ inner, ∀ c ∈ x, comparison? c = none) →
      ∀ x ∈ groupsFrom inner cs, ∀ c ∈ x, comparison? c = none := by
    intro inner cs hcs hinner
    induction cs generalizing inner with
    | nil => exact fun x hx => absurd hx List.not_mem_nil
    | cons c cs ih =>
        obtain ⟨hc, hcs⟩ := List.forall_mem_cons.1 hcs
        rw [groupsFrom]
        split
        · refine ih (some []) hcs fun x hx => ?_
          rw [← Option.some.inj hx]
          exact fun c hc => absurd hc List.not_mem_nil
        · split
          · refine List.forall_mem_append.2 ⟨fun x hx => hinner x (Option.mem_toList.1 hx), ?_⟩
            exact ih none hcs fun x hx => by cases hx
          · refine ih _ hcs fun x hx => ?_
            obtain ⟨y, hy, rfl⟩ := Option.mem_map.1 hx
            exact List.forall_mem_append.2 ⟨hinner y hy, List.forall_mem_singleton.2 hc⟩
  have hnone : ∀ x ∈ groups cs, chainBounds (operands x).1 (operands x).2 = {} := by
    intro x hx
    rw [operands_of_plain (hgroups none cs h (fun _ hx => by cases hx) x hx)]
    rfl
  rw [comparisonBounds]
  refine List.foldlRecOn (motive := fun b => b = {}) _ Bounds.or rfl ?_
  intro b hb x hx
  obtain ⟨group, hgroup, rfl⟩ := List.mem_map.1 hx
  rw [hb]
  exact congrArg (Bounds.or {}) (hnone group hgroup)

/-! ## Places -/

/-- Conditions with the same marks and the same bounds have the same place if there is a bound. -/
theorem Order.of_congr {a b : String}
    (hmarks : Marks.of (lower a.toList) = Marks.of (lower b.toList))
    (hbounds : bounds (lower a.toList) = bounds (lower b.toList)) (hne : bounds (lower a.toList) ≠ {}) :
    Order.of a = Order.of b := by
  obtain ⟨hprint, hpreference, hquantities⟩ := Marks.mk.inj hmarks
  have hbucket : Bucket.of a = Bucket.of b := by
    rw [Bucket.of, Bucket.of, ← hprint, ← hpreference, ← hbounds]
    -- Without bounds it would matter whether `screen` or `all` is in the text.
    match hbound : bounds (lower a.toList) with
    | ⟨true, true⟩ => rfl
    | ⟨true, false⟩ => rfl
    | ⟨false, true⟩ => rfl
    | ⟨false, false⟩ => exact absurd hbound hne
  rw [Order.of, Order.of, hbucket, Media.magnitude, Media.magnitude, hquantities]

end Stylesheet.Media
