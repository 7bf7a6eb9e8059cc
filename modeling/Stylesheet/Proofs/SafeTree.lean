import Stylesheet.Proofs.DeclarationText
import Stylesheet.Proofs.RoundTrip
import Stylesheet.Proofs.TameText

/-!
# Safe trees are read back

A text is *safe* when it is trimmed, made of some harmless ASCII characters, has balanced brackets
and starts neither a comment nor a url.  A tree is safe when its texts are, its names are plain words
and its comments do not close themselves.  Every safe tree, of any shape and depth, is read back
from its text: as it is in the pretty style, and with its preludes minified in the other.

Safe texts are tame, so the heads that are printed from them are legible (`Stylesheet.Proofs.TameText`),
and `Document.ofText_render` does the rest.  The minified style needs one more step.  Its printer
does not write the prelude itself but what `minifyPrelude` makes of it, so the tree that is read back
is the tree of minified preludes.  That tree is safe again, and the printer leaves its preludes alone:
on a safe text `minifyPrelude` is `squeeze`, which changes nothing when it is done a second time.
-/

namespace Stylesheet

open Stylesheet.Text (headIs isSpace lower occurs trim Trimmed isTame)
open Component (balanced)
open Token (marks isMark)

/-! ## Safe texts -/

namespace Text

/-- A character of a safe text. -/
def isSafeChar (c : Char) : Bool :=
  c.isAlphanum || [' ', '-', '_', '.', ',', '#', '%', '&', '+', '>', '~', '*', ':', '=', '/', '(',
    ')', '[', ']'].contains c

/-- Is a text safe? -/
def isSafe (cs : List Char) : Bool :=
  cs.all isSafeChar && !headIs isSpace cs && !headIs isSpace cs.reverse && balanced [] cs &&
    !occurs ['/', '*'] cs && !occurs ['u', 'r', 'l', '('] (lower cs)

/-- A lower-case letter, a digit or a hyphen. -/
def isWordChar (c : Char) : Bool := c.isLower || c.isDigit || c == '-'

/-- Is a text a lower-case letter, followed by lower-case letters, digits and hyphens? -/
def isWord : List Char → Bool
  | [] => false
  | c :: cs => c.isLower && cs.all isWordChar

/-- What makes a text safe. -/
structure Safe (cs : List Char) : Prop where
  /-- Its characters are safe. -/
  chars : ∀ c ∈ cs, isSafeChar c = true
  /-- It is trimmed. -/
  trimmed : Trimmed cs
  /-- Its brackets are balanced. -/
  closed : balanced [] cs = true
  /-- It starts no comment. -/
  noComment : occurs ['/', '*'] cs = false
  /-- It starts no url. -/
  noUrl : occurs ['u', 'r', 'l', '('] (lower cs) = false

theorem isSafe_iff {cs : List Char} : isSafe cs = true ↔ Safe cs := by
  constructor
  · intro h
    simp only [isSafe, Bool.and_eq_true, Bool.not_eq_true', List.all_eq_true] at h
    exact ⟨h.1.1.1.1.1, ⟨h.1.1.1.1.2, h.1.1.1.2⟩, h.1.1.2, h.1.2, h.2⟩
  · intro h
    simp only [isSafe, Bool.and_eq_true, Bool.not_eq_true', List.all_eq_true]
    exact ⟨⟨⟨⟨⟨h.chars, h.trimmed.1⟩, h.trimmed.2⟩, h.closed⟩, h.noComment⟩, h.noUrl⟩

/-! ## Occurrences -/

/-- What does not occur in two texts does not occur where they meet at a character that is not in
it. -/
theorem occurs_glue {word : List Char} (hword : word ≠ []) {s : Char} (hs : s ∉ word)
    {a b : List Char} (ha : occurs word a = false) (hb : occurs word b = false) :
    occurs word (a ++ s :: b) = false := by
  rw [occurs_eq_false_iff] at ha hb ⊢
  rw [List.infix_append_iff]
  rintro (hword' | hword' | ⟨front, rest, rfl, hfront, hrest⟩)
  · exact ha hword'
  · rcases List.infix_cons_iff.1 hword' with hstart | hlater
    · rcases List.prefix_cons_iff.1 hstart with rfl | ⟨rest, rfl, -⟩
      · exact hword rfl
      · exact hs List.mem_cons_self
    · exact hb hlater
  · rcases List.prefix_cons_iff.1 hrest with rfl | ⟨rest, rfl, -⟩
    · rw [List.append_nil] at ha
      exact ha hfront.isInfix
    · exact hs (List.mem_append_right front List.mem_cons_self)

/-- A word with a character that is not in a text does not occur in it. -/
theorem occurs_eq_false_of_not_mem {word : List Char} {d : Char} (hd : d ∈ word) {cs : List Char}
    (hcs : d ∉ cs) : occurs word cs = false := by
  rw [occurs_eq_false_iff]
  intro hword
  exact hcs (hword.subset hd)

/-- Tame texts can be put together at a character that stands apart. -/
theorem Tame.glue {a b : List Char} (ha : Tame a) (hb : Tame b) {s : Char}
    (hs : s ∈ [' ', ':', '!', ';', '\x7b']) : Tame (a ++ s :: b) := by
  have hall : ∀ s ∈ [' ', ':', '!', ';', '\x7b'],
      isTame s = true ∧ s ∉ ['/', '*'] ∧ s.toLower ∉ ['u', 'r', 'l', '('] := by
    simp [isTame]
  obtain ⟨htame, hcomment, hurl⟩ := hall s hs
  refine ⟨?_, occurs_glue (by simp) hcomment ha.noComment hb.noComment, ?_⟩
  · intro c hc
    rcases List.mem_append.1 hc with hc | hc
    · exact ha.chars c hc
    rcases List.mem_cons.1 hc with rfl | hc
    · exact htame
    · exact hb.chars c hc
  · rw [lower_append]
    exact occurs_glue (by simp) hurl ha.noUrl hb.noUrl

theorem tame_nil : Tame [] := ⟨fun _ hc => absurd hc List.not_mem_nil, rfl, rfl⟩

theorem Safe.tame {cs : List Char} (h : Safe cs) : Tame cs := by
  refine ⟨?_, h.noComment, h.noUrl⟩
  intro c hc
  have hsafe := h.chars c hc
  simp only [isSafeChar, Bool.or_eq_true] at hsafe
  simp only [isTame, Bool.or_eq_true]
  rcases hsafe with hsafe | hsafe
  · exact .inl hsafe
  · refine .inr ?_
    simp only [List.contains_iff_mem, List.mem_cons] at hsafe ⊢
    grind

/-! ## Squeezing -/

/-- The text with each run of spaces shortened to one, and to none after a comma.  `gap` says
whether spaces have been held back, `comma` whether the last character was a comma. -/
def squeeze (gap comma : Bool) : List Char → List Char
  | [] => []
  | c :: cs =>
      if isSpace c then squeeze true comma cs
      else if gap && !comma then ' ' :: c :: squeeze false (c == ',') cs
      else c :: squeeze false (c == ',') cs

/-- Squeezing is what minifying a prelude does outside quotes. -/
theorem minifyFrom_eq_squeeze {cs : List Char} (h : ∀ c ∈ cs, c ∉ ['\\', '"', '\''])
    (gap comma : Bool) :
    minifyFrom { pending := gap, afterComma := comma } cs = squeeze gap comma cs := by
  induction cs generalizing gap comma with
  | nil => rfl
  | cons c cs ih =>
      have hcs : ∀ d ∈ cs, d ∉ ['\\', '"', '\''] := fun d hd => h d (List.mem_cons_of_mem c hd)
      have hc : c ≠ '\\' ∧ c ≠ '"' ∧ c ≠ '\'' := by simpa using h c List.mem_cons_self
      rw [minifyFrom, squeeze]
      simp only [Bool.false_eq_true, if_false, Option.isNone_none, Bool.true_and]
      split
      · exact ih hcs true comma
      · have hback : (c == '\\') = false := by simp [hc]
        have hquote : quoteAfter c none = none := by simp [quoteAfter, hc]
        simp only [hback, hquote, Bool.false_eq_true, if_false, ih hcs]

theorem squeeze_space {c : Char} (hc : isSpace c = true) (gap comma : Bool) (cs : List Char) :
    squeeze gap comma (c :: cs) = squeeze true comma cs := by
  rw [squeeze, if_pos hc]

theorem squeeze_cons {c : Char} (hc : isSpace c = false) (comma : Bool) (cs : List Char) :
    squeeze false comma (c :: cs) = c :: squeeze false (c == ',') cs := by
  rw [squeeze, if_neg (by simp [hc])]
  rfl

/-- Held back spaces come out before the next character, unless a comma came before them. -/
theorem squeeze_gap {c : Char} (hc : isSpace c = false) (comma : Bool) (cs : List Char) :
    squeeze true comma (c :: cs) =
      (if comma then [] else [' ']) ++ squeeze false comma (c :: cs) := by
  rw [squeeze_cons hc, squeeze, if_neg (by simp [hc])]
  cases comma <;> rfl

/-- Induction over the text as squeezing reads it. -/
theorem squeeze_cases (gap comma : Bool) (c : Char) (cs : List Char) :
    (isSpace c = true ∧ squeeze gap comma (c :: cs) = squeeze true comma cs) ∨
    (isSpace c = false ∧ gap = true ∧ comma = false ∧
      squeeze gap comma (c :: cs) = ' ' :: c :: squeeze false (c == ',') cs) ∨
    (isSpace c = false ∧ squeeze gap comma (c :: cs) = c :: squeeze false (c == ',') cs) := by
  cases hc : isSpace c with
  | true => exact .inl ⟨rfl, squeeze_space hc gap comma cs⟩
  | false =>
      cases gap with
      | false => exact .inr (.inr ⟨rfl, squeeze_cons hc comma cs⟩)
      | true =>
          cases comma with
          | true => exact .inr (.inr ⟨rfl, by rw [squeeze_gap hc, squeeze_cons hc]; rfl⟩)
          | false => exact .inr (.inl ⟨rfl, rfl, rfl, by rw [squeeze_gap hc, squeeze_cons hc]; rfl⟩)

/-- Squeezing twice is squeezing once. -/
theorem squeeze_squeeze (gap comma : Bool) (cs : List Char) :
    squeeze false comma (squeeze gap comma cs) = squeeze gap comma cs := by
  induction cs generalizing gap comma with
  | nil => rfl
  | cons c cs ih =>
      rcases squeeze_cases gap comma c cs with ⟨-, h⟩ | ⟨hc, -, rfl, h⟩ | ⟨hc, h⟩
      · rw [h, ih]
      · rw [h, squeeze_space rfl, squeeze_gap hc, squeeze_cons hc, ih]
        rfl
      · rw [h, squeeze_cons hc, ih]

/-- Squeezing adds spaces only. -/
theorem mem_squeeze {gap comma : Bool} {cs : List Char} {d : Char}
    (h : d ∈ squeeze gap comma cs) : d = ' ' ∨ d ∈ cs := by
  induction cs generalizing gap comma with
  | nil => exact absurd h List.not_mem_nil
  | cons c cs ih =>
      rw [List.mem_cons]
      rcases squeeze_cases gap comma c cs with ⟨-, hs⟩ | ⟨-, -, -, hs⟩ | ⟨-, hs⟩
      · rw [hs] at h
        rcases ih h with h | h
        · exact .inl h
        · exact .inr (.inr h)
      · rw [hs, List.mem_cons, List.mem_cons] at h
        rcases h with h | h | h
        · exact .inl h
        · exact .inr (.inl h)
        · exact (ih h).imp_right .inr
      · rw [hs, List.mem_cons] at h
        rcases h with h | h
        · exact .inr (.inl h)
        · exact (ih h).imp_right .inr

/-- Squeezing removes spaces only. -/
theorem marks_squeeze (gap comma : Bool) (cs : List Char) :
    marks (squeeze gap comma cs) = marks cs := by
  induction cs generalizing gap comma with
  | nil => rfl
  | cons c cs ih =>
      have hcons : ∀ a, marks a = marks cs → marks (c :: a) = marks (c :: cs) := by
        intro a ha
        have hsplit := Token.marks_append [c] a
        rw [ha, ← Token.marks_append] at hsplit
        exact hsplit
      rcases squeeze_cases gap comma c cs with ⟨hc, hs⟩ | ⟨-, -, -, hs⟩ | ⟨-, hs⟩
      · have hmark : ¬isMark c = true := by
          rw [Token.not_isMark_of_class (p := isSpace) (by decide) hc]
          decide
        rw [hs, ih, marks, marks, List.filter_cons_of_neg hmark]
      · rw [hs, marks, List.filter_cons_of_neg (by decide)]
        exact hcons _ (ih false _)
      · rw [hs]
        exact hcons _ (ih false _)

/-- Squeezing ends with no space. -/
theorem headIs_reverse_squeeze (gap comma : Bool) (cs : List Char) :
    headIs isSpace (squeeze gap comma cs).reverse = false := by
  induction cs generalizing gap comma with
  | nil => rfl
  | cons c cs ih =>
      have hlast : isSpace c = false →
          headIs isSpace ((squeeze false (c == ',') cs).reverse ++ [c]) = false := by
        intro hc
        by_cases hnil : (squeeze false (c == ',') cs).reverse = []
        · rw [hnil]
          exact hc
        · rw [headIs_append_of_ne_nil hnil]
          exact ih false (c == ',')
      rcases squeeze_cases gap comma c cs with ⟨-, hs⟩ | ⟨hc, -, -, hs⟩ | ⟨hc, hs⟩
      · rw [hs]
        exact ih true comma
      · rw [hs, List.reverse_cons, List.reverse_cons, headIs_append_of_ne_nil (by simp)]
        exact hlast hc
      · rw [hs, List.reverse_cons]
        exact hlast hc

theorem lower_squeeze (gap comma : Bool) (cs : List Char) :
    lower (squeeze gap comma cs) = squeeze gap comma (lower cs) := by
  induction cs generalizing gap comma with
  | nil => rfl
  | cons c cs ih =>
      have hspace := class_toLower isSpace_of_isAlpha c
      have hcomma : (c.toLower == ',') = (c == ',') := by
        rw [Bool.eq_iff_iff, beq_iff_eq, beq_iff_eq, toLower_eq_iff rfl]
      have hcons : lower (c :: cs) = c.toLower :: lower cs := rfl
      rw [hcons, squeeze, squeeze, hspace, hcomma, ← ih, ← ih]
      split
      · rfl
      · split <;> rfl

/-- Held back spaces come out first. -/
theorem headIs_squeeze_gap {p : Char → Bool} (hp : p ' ' = false) (cs : List Char) :
    headIs p (squeeze true false cs) = false := by
  induction cs with
  | nil => rfl
  | cons c cs ih =>
      cases hc : isSpace c with
      | true =>
          rw [squeeze_space hc]
          exact ih
      | false =>
          rw [squeeze_gap hc]
          exact hp

/-- A word without spaces and commas at the start of a squeezed text was there before. -/
theorem isPrefixOf_of_squeeze {word : List Char} (hword : ∀ d ∈ word, d ≠ ' ' ∧ d ≠ ',')
    {cs : List Char} (h : word.isPrefixOf (squeeze false false cs) = true) :
    word.isPrefixOf cs = true := by
  induction word generalizing cs with
  | nil => cases cs <;> rfl
  | cons w word ih =>
      have hw := hword w List.mem_cons_self
      cases cs with
      | nil => exact h
      | cons c cs =>
          cases hc : isSpace c with
          | true =>
              rw [squeeze_space hc] at h
              have hhead := @headIs_squeeze_gap (fun d => w == d) (by simp [hw.1]) cs
              cases hrest : squeeze true false cs with
              | nil => simp [hrest] at h
              | cons d ds =>
                  rw [hrest, List.isPrefixOf, Bool.and_eq_true] at h
                  rw [hrest, headIs, h.1] at hhead
                  cases hhead
          | false =>
              rw [squeeze_cons hc, List.isPrefixOf, Bool.and_eq_true, beq_iff_eq] at h
              have hcomma : (c == ',') = false := by
                rw [← h.1]
                simp [hw.2]
              rw [hcomma] at h
              rw [List.isPrefixOf, Bool.and_eq_true, beq_iff_eq]
              exact ⟨h.1, ih (fun d hd => hword d (List.mem_cons_of_mem w hd)) h.2⟩

/-- Squeezing makes no word without spaces and commas. -/
theorem occurs_squeeze {word : List Char} (hne : word ≠ [])
    (hword : ∀ d ∈ word, d ≠ ' ' ∧ d ≠ ',') {cs : List Char} (h : occurs word cs = false)
    (gap comma : Bool) : occurs word (squeeze gap comma cs) = false := by
  induction cs generalizing gap comma with
  | nil => exact h
  | cons c cs ih =>
      obtain ⟨hstart, hrest⟩ := occurs_eq_false_of_cons h
      have hcons : isSpace c = false → occurs word (c :: squeeze false (c == ',') cs) = false := by
        intro hc
        rw [occurs, Bool.or_eq_false_iff]
        refine ⟨?_, ih hrest false (c == ',')⟩
        rw [← Bool.not_eq_true]
        intro hstarts
        rw [← squeeze_cons hc false] at hstarts
        rw [isPrefixOf_of_squeeze hword hstarts] at hstart
        cases hstart
      rcases squeeze_cases gap comma c cs with ⟨-, hs⟩ | ⟨hc, -, -, hs⟩ | ⟨hc, hs⟩
      · rw [hs]
        exact ih hrest true comma
      · rw [hs, occurs, Bool.or_eq_false_iff]
        refine ⟨?_, hcons hc⟩
        cases word with
        | nil => exact absurd rfl hne
        | cons w word =>
            have hw := (hword w List.mem_cons_self).1
            simp [List.isPrefixOf, hw]
      · rw [hs]
        exact hcons hc

/-- Words, and what stands around them, are squeezed by themselves. -/
theorem squeeze_append {a : List Char} (hne : a ≠ [])
    (ha : ∀ c ∈ a, isSpace c = false ∧ c ≠ ',') (comma : Bool) (b : List Char) :
    squeeze false comma (a ++ b) = a ++ squeeze false false b := by
  induction a generalizing comma with
  | nil => exact absurd rfl hne
  | cons c a ih =>
      have hc := ha c List.mem_cons_self
      have hcomma : (c == ',') = false := by simp [hc.2]
      rw [List.cons_append, squeeze_cons hc.1, hcomma, List.cons_append]
      by_cases hnil : a = []
      · rw [hnil]
        rfl
      · rw [ih hnil fun d hd => ha d (List.mem_cons_of_mem c hd)]

/-- Texts with the same marks are balanced together. -/
theorem balanced_congr {a b : List Char} (h : marks a = marks b) :
    balanced [] a = balanced [] b := by
  have ha := Component.balanced_append [] a []
  have hb := Component.balanced_append [] b []
  rw [List.append_nil, List.append_nil] at ha hb
  rw [ha, hb, h]

/-- A safe text is minified by squeezing, to a safe text that minifying leaves alone. -/
theorem Safe.minifyPrelude_eq {cs : List Char} (h : Safe cs) :
    minifyPrelude cs = squeeze false false cs := by
  rw [minifyPrelude, trim_eq_self_iff.2 h.trimmed]
  refine minifyFrom_eq_squeeze ?_ false false
  intro c hc hbad
  have hall : ∀ d ∈ ['\\', '"', '\''], isSafeChar d = false := class_eq_false_of_all rfl
  have hsafe := h.chars c hc
  rw [hall c hbad] at hsafe
  cases hsafe

theorem Safe.minifyPrelude {cs : List Char} (h : Safe cs) : Safe (minifyPrelude cs) := by
  rw [h.minifyPrelude_eq]
  refine ⟨?_, ⟨?_, headIs_reverse_squeeze false false cs⟩, ?_, ?_, ?_⟩
  · intro c hc
    rcases mem_squeeze hc with rfl | hc
    · rfl
    · exact h.chars c hc
  · cases cs with
    | nil => rfl
    | cons c cs =>
        rw [squeeze_cons h.trimmed.1]
        exact h.trimmed.1
  · rw [balanced_congr (marks_squeeze false false cs)]
    exact h.closed
  · exact occurs_squeeze (by simp) (by simp) h.noComment false false
  · rw [lower_squeeze]
    exact occurs_squeeze (by simp) (by simp) h.noUrl false false

theorem Safe.minifyPrelude_minifyPrelude {cs : List Char} (h : Safe cs) :
    Stylesheet.minifyPrelude (Stylesheet.minifyPrelude cs) = Stylesheet.minifyPrelude cs := by
  rw [h.minifyPrelude.minifyPrelude_eq, h.minifyPrelude_eq, squeeze_squeeze]

end Text

namespace Node

open Component (isHead startsItem isKeyword HeadEnd)
open Text (Safe Tame isWord isWordChar)

/-! ## Safe trees -/

/-- A character that a safe selector can start with. -/
def startsSelector (c : Char) : Bool := c.isAlpha || ['.', '#', '*', ':', '&', '['].contains c

mutual

/-- Are a node and everything in it safe? -/
def isSafe : Node → Bool
  | .rule selector children =>
      Text.isSafe selector.toList && headIs startsSelector selector.toList && areSafe children
  | .layer name children =>
      name.all (fun n => !n.isEmpty && Text.isSafe n.toList) && areSafe children
  | .media condition children => Text.isSafe condition.toList && areSafe children
  | .atRule name params children =>
      isWord name.toList && name != "layer" && name != "media" && Text.isSafe params.toList &&
        areSafe children
  | .declaration d => isWord d.property.toList && Text.isSafe d.value.toList
  | .statement name params => isWord name.toList && Text.isSafe params.toList
  | .comment text => !occurs ['*', '/'] text.toList
termination_by structural node => node

/-- Are some nodes and everything in them safe? -/
def areSafe : List Node → Bool
  | [] => true
  | n :: ns => isSafe n && areSafe ns
termination_by structural nodes => nodes

end

mutual

/-- Change the selectors, layer names, conditions and parameters of a node and of everything in
it. -/
def mapPreludes (f : String → String) : Node → Node
  | .rule selector children => .rule (f selector) (mapAllPreludes f children)
  | .layer name children => .layer (name.map f) (mapAllPreludes f children)
  | .media condition children => .media (f condition) (mapAllPreludes f children)
  | .atRule name params children => .atRule name (f params) (mapAllPreludes f children)
  | .declaration d => .declaration d
  | .statement name params => .statement name (f params)
  | .comment text => .comment text
termination_by structural node => node

/-- Change the selectors, layer names, conditions and parameters of some nodes and of everything in
them. -/
def mapAllPreludes (f : String → String) : List Node → List Node
  | [] => []
  | n :: ns => mapPreludes f n :: mapAllPreludes f ns
termination_by structural nodes => nodes

end

/-- A prelude as a style writes it. -/
def asWritten (style : Style) (text : String) : String := .ofList (headText style text.toList)

/-! ## Preludes -/

theorem toList_asWritten (style : Style) (text : String) :
    (asWritten style text).toList = headText style text.toList := String.toList_ofList

/-- A safe prelude as a style writes it is safe. -/
theorem safe_headText (style : Style) {cs : List Char} (h : Safe cs) : Safe (headText style cs) := by
  cases style with
  | pretty => exact h
  | minified => exact h.minifyPrelude

theorem headText_headText (style : Style) {cs : List Char} (h : Safe cs) :
    headText style (headText style cs) = headText style cs := by
  cases style with
  | pretty => rfl
  | minified => exact h.minifyPrelude_minifyPrelude

theorem safe_asWritten (style : Style) {text : String} (h : Safe text.toList) :
    Safe (asWritten style text).toList := by
  rw [toList_asWritten]
  exact safe_headText style h

theorem asWritten_asWritten (style : Style) {text : String} (h : Safe text.toList) :
    asWritten style (asWritten style text) = asWritten style text := by
  rw [← String.toList_inj, toList_asWritten, toList_asWritten, headText_headText style h]

/-- A safe prelude keeps its first character. -/
theorem headText_cons (style : Style) {c : Char} {cs : List Char} (h : Safe (c :: cs)) :
    ∃ ds, headText style (c :: cs) = c :: ds := by
  cases style with
  | pretty => exact ⟨cs, rfl⟩
  | minified => exact ⟨_, by rw [headText, h.minifyPrelude_eq, Text.squeeze_cons h.trimmed.1]⟩

theorem headIs_headText (style : Style) {cs : List Char} (h : Safe cs) (p : Char → Bool) :
    headIs p (headText style cs) = headIs p cs := by
  cases cs with
  | nil => cases style <;> rfl
  | cons c cs =>
      obtain ⟨ds, hds⟩ := headText_cons style h
      rw [hds]
      rfl

/-- A word is a letter and word characters. -/
theorem word_cases {cs : List Char} (h : isWord cs = true) :
    ∃ c ds, cs = c :: ds ∧ c.isAlpha = true ∧ ∀ d ∈ c :: ds, isWordChar d = true := by
  cases cs with
  | nil => exact absurd h (by simp [isWord])
  | cons c cs =>
      rw [isWord, Bool.and_eq_true, List.all_eq_true] at h
      refine ⟨c, cs, rfl, by simp [Char.isAlpha, h.1], ?_⟩
      intro d hd
      rcases List.mem_cons.1 hd with rfl | hd
      · simp [isWordChar, h.1]
      · exact h.2 d hd

/-- What a word character is, as a code point. -/
theorem isWordChar_iff {c : Char} : isWordChar c = true ↔
    (97 ≤ c.toNat ∧ c.toNat ≤ 122) ∨ (48 ≤ c.toNat ∧ c.toNat ≤ 57) ∨ c.toNat = 45 := by
  have hhyphen : c = '-' ↔ c.toNat = 45 := by
    constructor
    · rintro rfl
      rfl
    · intro h
      rw [← Char.ofNat_toNat c, h]
  simp [isWordChar, Char.isLower, Char.isDigit, UInt32.le_iff_toNat_le, hhyphen, or_assoc]

theorem ne_of_isWordChar {c d : Char} (hc : isWordChar c = true) (hd : isWordChar d = false) :
    c ≠ d := by
  rintro rfl
  rw [hc] at hd
  cases hd

theorem isSpace_of_isWordChar {c : Char} (h : isWordChar c = true) : isSpace c = false := by
  rw [isWordChar_iff] at h
  simp [isSpace]
  omega

theorem toLower_of_isWordChar {c : Char} (h : isWordChar c = true) : c.toLower = c := by
  refine Char.toLower_eq_of_not_isUpper ?_
  rw [isWordChar_iff] at h
  simp [Char.isUpper, UInt32.le_iff_toNat_le]
  omega

theorem isNameChar_of_isWordChar {c : Char} (h : isWordChar c = true) : Token.isNameChar c = true := by
  simp only [isWordChar, Bool.or_eq_true] at h
  simp only [Token.isNameChar, Token.isNameStart, Char.isAlpha, Bool.or_eq_true]
  grind

/-- A word is tame. -/
theorem tame_of_word {cs : List Char} (h : ∀ d ∈ cs, isWordChar d = true) : Tame cs := by
  have hlower : lower cs = cs := by
    rw [lower, List.map_congr_left fun d hd => toLower_of_isWordChar (h d hd), List.map_id']
  have hno : ∀ {d : Char}, isWordChar d = false → d ∉ cs :=
    fun hd hmem => ne_of_isWordChar (h _ hmem) hd rfl
  refine ⟨?_, ?_, ?_⟩
  · intro d hd
    have hword := h d hd
    simp only [isWordChar, Bool.or_eq_true] at hword
    simp only [isTame, Char.isAlphanum, Char.isAlpha, Bool.or_eq_true]
    rcases hword with (hd | hd) | hd
    · exact .inl (.inl (.inr hd))
    · exact .inl (.inr hd)
    · rw [beq_iff_eq.1 hd]
      exact .inr rfl
  · exact Text.occurs_eq_false_of_not_mem (d := '/') (by simp) (hno rfl)
  · rw [hlower]
    exact Text.occurs_eq_false_of_not_mem (d := '(') (by simp) (hno rfl)

theorem marks_of_word {cs : List Char} (h : ∀ d ∈ cs, isWordChar d = true) : marks cs = [] := by
  rw [marks, List.filter_eq_nil_iff]
  intro d hd
  rw [Token.not_isMark_of_class (p := isWordChar) (by decide) (h d hd)]
  exact Bool.false_ne_true

/-- A text of word characters is safe. -/
theorem safe_of_word {cs : List Char} (h : ∀ d ∈ cs, isWordChar d = true) : Safe cs := by
  have htame := tame_of_word h
  refine ⟨fun d hd => ?_, Text.trimmed_of_plain fun d hd => isSpace_of_isWordChar (h d hd), ?_,
    htame.noComment, htame.noUrl⟩
  · have hword := h d hd
    simp only [isWordChar, Bool.or_eq_true] at hword
    simp only [Text.isSafeChar, Char.isAlphanum, Char.isAlpha, Bool.or_eq_true]
    rcases hword with (hd | hd) | hd
    · exact .inl (.inl (.inr hd))
    · exact .inl (.inr hd)
    · rw [beq_iff_eq.1 hd]
      exact .inr rfl
  · rw [Text.balanced_congr (b := []) (marks_of_word h)]
    rfl

/-! ## Heads of safe nodes -/

/-- Parameters are squeezed behind the space before them. -/
theorem squeeze_paramsText {params : String} (h : Safe params.toList) :
    Text.squeeze false false (paramsText params) = paramsText (asWritten .minified params) := by
  have hwritten : (asWritten .minified params).toList = Text.squeeze false false params.toList := by
    rw [toList_asWritten, headText, h.minifyPrelude_eq]
  rw [paramsText, paramsText, hwritten]
  cases hparams : params.toList with
  | nil =>
      have hempty : params.isEmpty = true := by
        rw [String.isEmpty_iff, ← String.toList_inj, hparams]
        rfl
      have hempty' : (asWritten .minified params).isEmpty = true := by
        rw [String.isEmpty_iff, ← String.toList_inj, hwritten, hparams]
        rfl
      rw [if_pos hempty, if_pos hempty']
      rfl
  | cons c cs =>
      rw [hparams] at h hwritten
      have hc : isSpace c = false := h.trimmed.1
      have hempty : ¬params.isEmpty = true := by
        rw [String.isEmpty_iff, ← String.toList_inj, hparams]
        simp
      have hempty' : ¬(asWritten .minified params).isEmpty = true := by
        rw [String.isEmpty_iff, ← String.toList_inj, hwritten, Text.squeeze_cons hc]
        simp
      rw [if_neg hempty, if_neg hempty', Text.squeeze_space rfl, Text.squeeze_gap hc]
      rfl

/-- The characters of the head of an at-rule are harmless outside the at-keyword, and it is
trimmed. -/
theorem trimmed_atHead {name params : String} (hname : ∀ d ∈ name.toList, isWordChar d = true)
    (hparams : Safe params.toList) : Trimmed (atHead name params) := by
  refine ⟨rfl, ?_⟩
  rw [atHead_eq, paramsText]
  split
  · rw [List.append_nil]
    refine (Text.trimmed_of_plain ?_).2
    intro d hd
    rcases List.mem_cons.1 hd with rfl | hd
    · rfl
    · exact isSpace_of_isWordChar (hname d hd)
  · next hempty =>
      have hne : params.toList.reverse ≠ [] := by
        intro hnil
        rw [List.reverse_eq_nil_iff] at hnil
        exact hempty (by rw [String.isEmpty_iff, ← String.toList_inj, hnil]; rfl)
      rw [List.reverse_append, List.reverse_cons, List.append_assoc,
        Text.headIs_append_of_ne_nil hne]
      exact hparams.trimmed.2

/-- The head of an at-rule is minified in its parameters only. -/
theorem headText_atHead (style : Style) {name params : String} (hname : isWord name.toList = true)
    (hparams : Safe params.toList) :
    headText style (atHead name params) = atHead name (asWritten style params) := by
  obtain ⟨c, cs, hcs, -, hword⟩ := word_cases hname
  rw [← hcs] at hword
  cases style with
  | pretty => rw [headText, asWritten, headText, String.ofList_toList]
  | minified =>
      have hkeyword : ∀ d ∈ '@' :: name.toList, isSpace d = false ∧ d ≠ ',' := by
        intro d hd
        rcases List.mem_cons.1 hd with rfl | hd
        · exact ⟨rfl, by decide⟩
        · exact ⟨isSpace_of_isWordChar (hword d hd), ne_of_isWordChar (hword d hd) rfl⟩
      have hplain : ∀ d ∈ atHead name params, d ∉ ['\\', '"', '\''] := by
        intro d hd hbad
        have hall : ∀ e ∈ ['\\', '"', '\''], isWordChar e = false ∧ e ≠ '@' ∧ e ≠ ' ' ∧
          Text.isSafeChar e = false := by simp [isWordChar, Text.isSafeChar]
        obtain ⟨hnot, hat, hspace, hunsafe⟩ := hall d hbad
        rw [atHead_eq, List.mem_append, List.mem_cons] at hd
        rcases hd with (hd | hd) | hd
        · exact hat hd
        · exact ne_of_isWordChar (hword d hd) hnot rfl
        · rw [paramsText] at hd
          split at hd
          · exact absurd hd List.not_mem_nil
          · rcases List.mem_cons.1 hd with hd | hd
            · exact hspace hd
            · rw [hparams.chars d hd] at hunsafe
              cases hunsafe
      rw [headText, minifyPrelude, Text.trim_eq_self_iff.2 (trimmed_atHead hword hparams),
        Text.minifyFrom_eq_squeeze hplain, atHead_eq, Text.squeeze_append (by simp) hkeyword,
        squeeze_paramsText hparams, atHead_eq]

/-- Minifying the parameters first makes no difference to the head. -/
theorem headText_atHead_asWritten (style : Style) {name params : String}
    (hname : isWord name.toList = true) (hparams : Safe params.toList) :
    headText style (atHead name (asWritten style params)) = headText style (atHead name params) := by
  rw [headText_atHead style hname (safe_asWritten style hparams), headText_atHead style hname hparams,
    asWritten_asWritten style hparams]

/-- A safe text may stand before anything that ends a head. -/
theorem tame_concat {x : List Char} (h : Tame x) {e : Char} (he : e ∈ [' ', ':', '!', ';', '\x7b']) :
    Tame (x ++ [e]) := h.glue Text.tame_nil he

theorem tame_gap (style : Style) {x : List Char} (h : Tame x) :
    Tame (x ++ gapBeforeBlock style ++ ['\x7b']) := by
  cases style with
  | pretty => exact tame_concat (tame_concat h (by simp)) (by simp)
  | minified =>
      rw [gapBeforeBlock, List.append_nil]
      exact tame_concat h (by simp)

theorem marks_gap (style : Style) (x : List Char) : marks (x ++ gapBeforeBlock style) = marks x := by
  rw [Token.marks_append]
  cases style <;> exact List.append_nil _

/-- No character of a safe text ends a head. -/
theorem plain_of_safe {cs : List Char} (h : Safe cs) : ∀ d ∈ cs, d ∉ [';', '\x7b', '\x7d'] := by
  intro d hd hbad
  have hall : ∀ e ∈ [';', '\x7b', '\x7d'], Text.isSafeChar e = false :=
    Text.class_eq_false_of_all rfl
  have hsafe := h.chars d hd
  rw [hall d hbad] at hsafe
  cases hsafe

theorem plain_congr {a b : List Char} (h : marks a = marks b)
    (hb : ∀ d ∈ b, d ∉ [';', '\x7b', '\x7d']) : ∀ d ∈ a, d ∉ [';', '\x7b', '\x7d'] := by
  intro d hd hbad
  have hall : ∀ e ∈ [';', '\x7b', '\x7d'], isMark e = true := List.all_eq_true.1 (by decide)
  have hmem : d ∈ marks a := List.mem_filter.2 ⟨hd, hall d hbad⟩
  rw [h] at hmem
  exact hb d (List.mem_filter.1 hmem).1 hbad

/-- A safe selector that a style leaves alone is legible. -/
theorem opensBlock_of_safe {style : Style} (nested : Bool) {cs : List Char} (h : Safe cs)
    (hstart : headIs startsSelector cs = true) (hstyle : headText style cs = cs) :
    opensBlock style nested startsItem cs = true := by
  have hne : cs ≠ [] := by
    rintro rfl
    exact absurd hstart (by simp [headIs])
  rw [opensBlock, hstyle]
  refine Component.isHead_of_tame Component.headEnd_openCurly (tame_gap style h.tame)
    (plain_congr (marks_gap style cs) (plain_of_safe h)) ?_ ?_
  · rw [Text.balanced_congr (marks_gap style cs)]
    exact h.closed
  · rw [Text.headIs_append_of_ne_nil hne]
    cases cs with
    | nil => exact absurd rfl hne
    | cons c cs =>
        have hc : startsSelector c = true := hstart
        have hnot : ∀ d ∈ [' ', '\t', '\n', '\r', '\x0c', '-'], c ≠ d := by
          have hall : ∀ d ∈ [' ', '\t', '\n', '\r', '\x0c', '-'], startsSelector d = false :=
            Text.class_eq_false_of_all rfl
          rintro d hd rfl
          rw [hall c hd] at hc
          cases hc
        simp [headIs, Token.isBlank, Token.isNewline] at hnot ⊢
        grind

theorem tame_paramsText {params : String} (h : Safe params.toList) : Tame (paramsText params) := by
  rw [paramsText]
  split
  · exact Text.tame_nil
  · exact Text.tame_nil.glue h.tame (by simp)

theorem marks_paramsText (params : String) : marks (paramsText params) = marks params.toList := by
  rw [paramsText]
  split
  · next hempty =>
      rw [String.isEmpty_iff.1 hempty]
      rfl
  · rfl

/-- The name of an at-rule ends where its parameters begin. -/
theorem headIs_paramsText (params : String) {e : Char} (he : Token.isNameChar e = false)
    (x : List Char) : headIs Token.isNameChar (paramsText params ++ e :: x) = false := by
  rw [paramsText]
  split
  · exact he
  · rfl

/-- The head of an at-rule with safe parameters is settled and legible. -/
theorem settled_of_word {style : Style} (nested : Bool) {name params : String}
    (hname : isWord name.toList = true) (hparams : Safe params.toList)
    (hstyle : asWritten style params = params) :
    AtSettled style name params ∧
      opensBlock style nested (isKeyword name) (atHead name params) = true ∧
      endsItem nested (isKeyword name) (headText style (atHead name params)) = true := by
  obtain ⟨c, cs, hcs, hc, hword⟩ := word_cases hname
  have hhead : headText style (atHead name params) = atHead name params := by
    rw [headText_atHead style hname hparams, hstyle]
  have hlower : lower name.toList = name.toList := by
    rw [hcs, lower, List.map_congr_left fun d hd => toLower_of_isWordChar (hword d hd), List.map_id']
  have hchars : ∀ d ∈ c :: cs, Token.isNameChar d = true ∧ d ≠ '\\' ∧ d ≠ '\x00' := by
    intro d hd
    exact ⟨isNameChar_of_isWordChar (hword d hd), ne_of_isWordChar (hword d hd) rfl,
      ne_of_isWordChar (hword d hd) rfl⟩
  have htame := tame_paramsText hparams
  have hmarks := marks_paramsText params
  have hplain := plain_congr hmarks (plain_of_safe hparams)
  have hbalanced : balanced [] (paramsText params) = true := by
    rw [Text.balanced_congr hmarks]
    exact hparams.closed
  refine ⟨⟨hlower, hparams.trimmed, hhead⟩, ?_, ?_⟩
  · rw [opensBlock, hhead, atHead_eq, List.append_assoc, List.append_assoc,
      ← List.append_assoc (paramsText params)]
    refine Component.isHead_atKeyword Component.headEnd_openCurly hcs hc hchars (tame_gap style htame)
      ?_ (plain_congr (marks_gap style _) hplain) ?_
    · rw [List.append_assoc]
      cases style with
      | pretty => exact headIs_paramsText params rfl _
      | minified => exact headIs_paramsText params rfl _
    · rw [Text.balanced_congr (marks_gap style _)]
      exact hbalanced
  · rw [endsItem, hhead, atHead_eq, List.append_assoc]
    exact Component.isHead_atKeyword Component.headEnd_semicolon hcs hc hchars
      (tame_concat htame (by simp)) (headIs_paramsText params rfl _) hplain hbalanced

/-- A declaration with a safe value is normal. -/
theorem normal_of_safe {d : Declaration} (hproperty : isWord d.property.toList = true)
    (hvalue : Safe d.value.toList) : d.Normal := by
  obtain ⟨c, cs, hcs, hc, hword⟩ := word_cases hproperty
  rw [← hcs] at hword
  have hmark : '!' ∉ d.value.toList := by
    intro hmem
    exact absurd (hvalue.chars _ hmem) (by decide)
  refine ⟨by simp [hcs], ?_, ?_, hvalue.trimmed, ?_⟩
  · intro e he
    exact ⟨ne_of_isWordChar (hword e he) rfl, isSpace_of_isWordChar (hword e he)⟩
  · have hhyphen : ¬['-', '-'].isPrefixOf d.property.toList = true := by
      have hne : c ≠ '-' := by
        rintro rfl
        cases hc
      simp [hcs, List.isPrefixOf, Ne.symm hne]
    rw [Declaration.propertyName, if_neg hhyphen, lower,
      List.map_congr_left fun e he => toLower_of_isWordChar (hword e he), List.map_id']
  · intro _
    rw [Declaration.splitImportance, Text.trim_eq_self_iff.2 hvalue.trimmed,
      Text.splitLast?_eq_none hmark]

theorem tame_declarationText (style : Style) {d : Declaration}
    (hproperty : ∀ c ∈ d.property.toList, isWordChar c = true) (hvalue : Safe d.value.toList) :
    Tame (declarationText style d) := by
  have hname := tame_of_word hproperty
  have hmark : Tame "important".toList := tame_of_word (List.all_eq_true.1 (by decide))
  have hspaced : ∀ {x : List Char}, Tame x → Tame ([] ++ ' ' :: x) := fun hx =>
    Text.tame_nil.glue hx (by simp)
  cases style with
  | pretty =>
      cases hd : d.important with
      | true =>
          have hmarked :=
            hvalue.tame.glue (Text.tame_nil.glue hmark (s := '!') (by simp)) (s := ' ') (by simp)
          simpa [declarationText, hd] using hname.glue (hspaced hmarked) (s := ':') (by simp)
      | false =>
          simpa [declarationText, hd] using hname.glue (hspaced hvalue.tame) (s := ':') (by simp)
  | minified =>
      cases hd : d.important with
      | true =>
          have hmarked := hvalue.tame.glue hmark (s := '!') (by simp)
          simpa [declarationText, hd] using hname.glue hmarked (s := ':') (by simp)
      | false => simpa [declarationText, hd] using hname.glue hvalue.tame (s := ':') (by simp)

theorem marks_declarationText (style : Style) {d : Declaration}
    (hproperty : ∀ c ∈ d.property.toList, isWordChar c = true) :
    marks (declarationText style d) = marks d.value.toList := by
  have himportant : marks " !important".toList = [] ∧ marks "!important".toList = [] := by decide
  cases style with
  | pretty =>
      rw [declarationText, Token.marks_append, Token.marks_append, Token.marks_append,
        marks_of_word hproperty]
      split
      · rw [himportant.1, List.append_nil]
        rfl
      · exact List.append_nil _
  | minified =>
      rw [declarationText, Token.marks_append, Token.marks_append, Token.marks_append,
        marks_of_word hproperty]
      split
      · rw [himportant.2, List.append_nil]
        rfl
      · exact List.append_nil _

/-- A declaration with a safe value is legible. -/
theorem endsItem_of_safe (style : Style) (nested : Bool) {d : Declaration}
    (hproperty : isWord d.property.toList = true) (hvalue : Safe d.value.toList) :
    endsItem nested startsItem (declarationText style d) = true := by
  obtain ⟨c, cs, hcs, hc, hword⟩ := word_cases hproperty
  rw [← hcs] at hword
  have htame := tame_declarationText style hword hvalue
  have hmarks := marks_declarationText style hword
  refine Component.isHead_of_tame Component.headEnd_semicolon (tame_concat htame (by simp))
    (plain_congr hmarks (plain_of_safe hvalue)) ?_ ?_
  · rw [Text.balanced_congr hmarks]
    exact hvalue.closed
  · obtain ⟨sp, gap, -, -, htext⟩ := Declaration.declarationText_eq style d
    have hne : ∀ e : Char, e.isAlpha = false → c ≠ e := by
      rintro e he rfl
      rw [hc] at he
      cases he
    rw [htext, hcs, List.cons_append, headIs]
    simp [Token.isBlank, Token.isNewline, hne]

/-! ## Whole trees -/

theorem safe_nil : Safe [] := Text.isSafe_iff.1 rfl

theorem asWritten_empty (style : Style) : asWritten style "" = "" := by
  cases style <;> rfl

/-- The name of a layer, empty if there is none, is safe and written like any other prelude. -/
theorem layer_cases (style : Style) {name : Option String}
    (h : name.all (fun n => !n.isEmpty && Text.isSafe n.toList) = true) :
    Safe (name.getD "").toList ∧ (name.map (asWritten style)).getD "" = asWritten style (name.getD "") ∧
      name.map (asWritten style) ≠ some "" := by
  cases name with
  | none =>
      refine ⟨safe_nil, ?_, by simp⟩
      rw [Option.map_none, Option.getD_none, asWritten_empty]
  | some n =>
      rw [Option.all_some, Bool.and_eq_true, Bool.not_eq_true', Text.isSafe_iff] at h
      refine ⟨h.2, rfl, ?_⟩
      rw [Option.map_some, ne_eq, Option.some.injEq, ← String.toList_inj, toList_asWritten]
      cases hn : n.toList with
      | nil =>
          have hempty : n.isEmpty = true := by
            rw [String.isEmpty_iff, ← String.toList_inj, hn]
            rfl
          rw [hempty] at h
          exact absurd h.1 (by decide)
      | cons c cs =>
          rw [hn] at h
          obtain ⟨ds, hds⟩ := headText_cons style h.2
          rw [hds]
          simp

mutual

/-- A safe node with its preludes as a style writes them is settled and legible. -/
theorem settled_of_isSafe (style : Style) (nested : Bool) : (n : Node) → isSafe n = true →
    Settled style (mapPreludes (asWritten style) n) ∧
      legible style nested (mapPreludes (asWritten style) n) = true
  | .rule selector children, h => by
      rw [isSafe, Bool.and_eq_true, Bool.and_eq_true, Text.isSafe_iff] at h
      obtain ⟨⟨hselector, hstart⟩, hchildren⟩ := h
      have hsafe := safe_asWritten style hselector
      have hhead : headText style (asWritten style selector).toList = (asWritten style selector).toList := by
        rw [← toList_asWritten, asWritten_asWritten style hselector]
      obtain ⟨hsettled, hlegible⟩ := settledAll_of_areSafe style true children hchildren
      rw [mapPreludes, Settled, legible, Bool.and_eq_true]
      refine ⟨⟨hsafe.trimmed, hhead, hsettled⟩, ?_, hlegible⟩
      refine opensBlock_of_safe nested hsafe ?_ hhead
      rw [toList_asWritten, headIs_headText style hselector]
      exact hstart
  | .layer name children, h => by
      rw [isSafe, Bool.and_eq_true] at h
      obtain ⟨hsafe, hwritten, hne⟩ := layer_cases style h.1
      obtain ⟨hat, hopens, -⟩ := @settled_of_word style nested "layer" _ rfl
        (safe_asWritten style hsafe) (asWritten_asWritten style hsafe)
      obtain ⟨hsettled, hlegible⟩ := settledAll_of_areSafe style true children h.2
      rw [mapPreludes, Settled, legible, Bool.and_eq_true, hwritten]
      exact ⟨⟨hne, hat, hsettled⟩, hopens, hlegible⟩
  | .media condition children, h => by
      rw [isSafe, Bool.and_eq_true, Text.isSafe_iff] at h
      obtain ⟨hat, hopens, -⟩ := @settled_of_word style nested "media" _ rfl
        (safe_asWritten style h.1) (asWritten_asWritten style h.1)
      obtain ⟨hsettled, hlegible⟩ := settledAll_of_areSafe style true children h.2
      rw [mapPreludes, Settled, legible, Bool.and_eq_true]
      exact ⟨⟨hat, hsettled⟩, hopens, hlegible⟩
  | .atRule name params children, h => by
      simp only [isSafe, Bool.and_eq_true, bne_iff_ne, Text.isSafe_iff] at h
      obtain ⟨⟨⟨⟨hname, hlayer⟩, hmedia⟩, hparams⟩, hchildren⟩ := h
      obtain ⟨hat, hopens, -⟩ := settled_of_word nested hname (safe_asWritten style hparams)
        (asWritten_asWritten style hparams)
      obtain ⟨hsettled, hlegible⟩ := settledAll_of_areSafe style true children hchildren
      rw [mapPreludes, Settled, legible, Bool.and_eq_true]
      exact ⟨⟨hlayer, hmedia, hat, hsettled⟩, hopens, hlegible⟩
  | .declaration d, h => by
      rw [isSafe, Bool.and_eq_true, Text.isSafe_iff] at h
      rw [mapPreludes, Settled, legible]
      exact ⟨(normal_of_safe h.1 h.2).ofText?_declarationText style,
        endsItem_of_safe style nested h.1 h.2⟩
  | .statement name params, h => by
      rw [isSafe, Bool.and_eq_true, Text.isSafe_iff] at h
      obtain ⟨hat, -, hends⟩ := settled_of_word nested h.1 (safe_asWritten style h.2)
        (asWritten_asWritten style h.2)
      rw [mapPreludes, Settled, legible]
      exact ⟨hat, hends⟩
  | .comment text, h => by
      rw [isSafe, Bool.not_eq_true'] at h
      rw [mapPreludes, Settled, legible]
      exact ⟨h, rfl⟩
termination_by structural n => n

/-- Safe nodes with their preludes as a style writes them are settled and legible. -/
theorem settledAll_of_areSafe (style : Style) (nested : Bool) : (ns : List Node) →
    areSafe ns = true → SettledAll style (mapAllPreludes (asWritten style) ns) ∧
      legibleAll style nested (mapAllPreludes (asWritten style) ns) = true
  | [], _ => by
      rw [mapAllPreludes, SettledAll, legibleAll]
      exact ⟨trivial, rfl⟩
  | n :: ns, h => by
      rw [areSafe, Bool.and_eq_true] at h
      obtain ⟨hsettled, hlegible⟩ := settled_of_isSafe style nested n h.1
      obtain ⟨hsettled', hlegible'⟩ := settledAll_of_areSafe style nested ns h.2
      rw [mapAllPreludes, SettledAll, legibleAll, Bool.and_eq_true]
      exact ⟨⟨hsettled, hsettled'⟩, hlegible, hlegible'⟩
termination_by structural ns => ns

end

theorem isEmpty_mapAllPreludes (f : String → String) (ns : List Node) :
    (mapAllPreludes f ns).isEmpty = ns.isEmpty := by
  cases ns <;> rfl

theorem separator_mapPreludes (style : Style) (f : String → String) (n : Node) :
    separator style (mapPreludes f n) = separator style n := by
  cases style <;> cases n <;> rfl

/-- Only the written form of a head shows in a block. -/
theorem blockText_congr {style : Style} {depth : Nat} {head head' : List Char}
    (hhead : headText style head = headText style head') {children children' : List Node}
    (hempty : children.isEmpty = children'.isEmpty)
    (hchildren : renderList style (depth + 1) children = renderList style (depth + 1) children') :
    blockText style depth head children.isEmpty (renderList style (depth + 1) children) =
      blockText style depth head' children'.isEmpty (renderList style (depth + 1) children') := by
  cases style with
  | pretty => rw [show head = head' from hhead, hempty, hchildren]
  | minified => rw [blockText, blockText, hhead, hchildren]

mutual

/-- A style writes a safe node as it writes the node with the preludes of that style. -/
theorem renderAt_asWritten (style : Style) (depth : Nat) : (n : Node) → isSafe n = true →
    renderAt style depth (mapPreludes (asWritten style) n) = renderAt style depth n
  | .rule selector children, h => by
      rw [isSafe, Bool.and_eq_true, Bool.and_eq_true, Text.isSafe_iff] at h
      rw [mapPreludes, renderAt, renderAt]
      refine blockText_congr ?_ (isEmpty_mapAllPreludes _ children)
        (renderList_asWritten style (depth + 1) children h.2)
      rw [toList_asWritten, headText_headText style h.1.1]
  | .layer name children, h => by
      rw [isSafe, Bool.and_eq_true] at h
      obtain ⟨hsafe, hwritten, -⟩ := layer_cases style h.1
      rw [mapPreludes, renderAt, renderAt, hwritten]
      refine blockText_congr ?_ (isEmpty_mapAllPreludes _ children)
        (renderList_asWritten style (depth + 1) children h.2)
      exact headText_atHead_asWritten style rfl hsafe
  | .media condition children, h => by
      rw [isSafe, Bool.and_eq_true, Text.isSafe_iff] at h
      rw [mapPreludes, renderAt, renderAt]
      refine blockText_congr ?_ (isEmpty_mapAllPreludes _ children)
        (renderList_asWritten style (depth + 1) children h.2)
      exact headText_atHead_asWritten style rfl h.1
  | .atRule name params children, h => by
      simp only [isSafe, Bool.and_eq_true, Text.isSafe_iff] at h
      rw [mapPreludes, renderAt, renderAt]
      refine blockText_congr ?_ (isEmpty_mapAllPreludes _ children)
        (renderList_asWritten style (depth + 1) children h.2)
      exact headText_atHead_asWritten style h.1.1.1.1 h.1.2
  | .declaration d, _ => by rw [mapPreludes]
  | .statement name params, h => by
      rw [isSafe, Bool.and_eq_true, Text.isSafe_iff] at h
      rw [mapPreludes, renderAt, renderAt, headText_atHead_asWritten style h.1 h.2]
  | .comment text, _ => by rw [mapPreludes]
termination_by structural n => n

/-- A style writes safe nodes as it writes the nodes with the preludes of that style. -/
theorem renderList_asWritten (style : Style) (depth : Nat) : (ns : List Node) → areSafe ns = true →
    renderList style depth (mapAllPreludes (asWritten style) ns) = renderList style depth ns
  | [], _ => by rw [mapAllPreludes]
  | n :: ns, h => by
      rw [areSafe, Bool.and_eq_true] at h
      rw [mapAllPreludes, renderList, renderList, renderAt_asWritten style depth n h.1,
        renderList_asWritten style depth ns h.2, isEmpty_mapAllPreludes, separator_mapPreludes]
termination_by structural ns => ns

end

mutual

theorem mapPreludes_eq_self {f : String → String} (hf : ∀ text, f text = text) :
    (n : Node) → mapPreludes f n = n
  | .rule selector children => by rw [mapPreludes, hf, mapAllPreludes_eq_self hf children]
  | .layer name children => by
      rw [mapPreludes, mapAllPreludes_eq_self hf children, funext hf, Option.map_id']
  | .media condition children => by rw [mapPreludes, hf, mapAllPreludes_eq_self hf children]
  | .atRule name params children => by rw [mapPreludes, hf, mapAllPreludes_eq_self hf children]
  | .declaration d => by rw [mapPreludes]
  | .statement name params => by rw [mapPreludes, hf]
  | .comment text => by rw [mapPreludes]
termination_by structural n => n

theorem mapAllPreludes_eq_self {f : String → String} (hf : ∀ text, f text = text) :
    (ns : List Node) → mapAllPreludes f ns = ns
  | [] => by rw [mapAllPreludes]
  | n :: ns => by rw [mapAllPreludes, mapPreludes_eq_self hf n, mapAllPreludes_eq_self hf ns]
termination_by structural ns => ns

end

end Node

/-- A safe stylesheet is read back with its preludes as the style writes them. -/
theorem Document.ofText_render_asWritten (style : Style) {nodes : List Node}
    (h : Node.areSafe nodes = true) :
    Document.ofText (Document.render style ⟨nodes⟩) =
      ⟨Node.mapAllPreludes (Node.asWritten style) nodes⟩ := by
  obtain ⟨hsettled, hlegible⟩ := Node.settledAll_of_areSafe style false nodes h
  have hread := @Document.ofText_render style ⟨_⟩ hsettled hlegible
  rw [Document.render, Node.renderList_asWritten style 0 nodes h] at hread
  exact hread

/-- The prelude that `minifyPrelude` makes of another one. -/
def minified (text : String) : String := .ofList (minifyPrelude text.toList)

/-- A safe stylesheet is read back as it is from its pretty text, and with minified preludes from its
minified text. -/
theorem Document.ofText_render_of_safe {nodes : List Node} (h : Node.areSafe nodes = true) :
    Document.ofText (Document.render .pretty ⟨nodes⟩) = ⟨nodes⟩ ∧
      Document.ofText (Document.render .minified ⟨nodes⟩) = ⟨Node.mapAllPreludes minified nodes⟩ := by
  refine ⟨?_, Document.ofText_render_asWritten .minified h⟩
  have hpretty : ∀ text, Node.asWritten .pretty text = text := fun text => String.ofList_toList
  rw [Document.ofText_render_asWritten .pretty h, Node.mapAllPreludes_eq_self hpretty]

/-- A tree with all sorts of nodes, in which the preludes of two are shortened. -/
theorem Document.ofText_render_of_safe_nested :
    Document.ofText (Document.render .minified ⟨[.layer (some "base") [.rule "a,  b:is(c) > [d]"
        [.declaration ⟨"top", "calc(1px + 2%)", true⟩, .comment " e ", .rule "&:hover" []],
        .media "screen  and (width)" [.statement "import" "f"]], .atRule "font-face" "" []]⟩) =
      ⟨[.layer (some "base") [.rule "a,b:is(c) > [d]"
        [.declaration ⟨"top", "calc(1px + 2%)", true⟩, .comment " e ", .rule "&:hover" []],
        .media "screen and (width)" [.statement "import" "f"]], .atRule "font-face" "" []]⟩ :=
  (Document.ofText_render_of_safe (by decide +kernel)).2

end Stylesheet
