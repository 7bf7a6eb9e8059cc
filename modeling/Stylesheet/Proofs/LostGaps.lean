import Stylesheet.Proofs.SelectorMeaning
import Stylesheet.Proofs.SelectorReading

/-!
# Gaps that minifying loses

A *gap* is the spaces between two parts of a branch, which are a descendant combinator.  Minifying leaves
one space of them, and none behind a comma.  So a gap is lost in two places (`losesGap`).

* Behind an escaped comma no space is left.
* Behind the digits of an escape and the space that ends them, the one space that is left is taken for
  the end of the escape.

What comes behind the gap is then taken for the rest of the name in front of it, as far as it goes on as a
name.

There is a third difference, which is none of gaps.  A character outside ASCII may stand in a name and be a
space at the same time.  Minifying takes it for a space (`hasSpacedName`).
-/

namespace Stylesheet.Selector

open Stylesheet.Text (headIs isHexDigit isSpace lower)

/-! ## Names -/

/-- Does the name at the start of a text hold a space that does not belong to an escape? -/
def spacedName : (skip : Nat) → List Char → Bool
  | _, [] => false
  | skip + 1, _ :: cs => spacedName skip cs
  | 0, c :: cs =>
      if c == '\\' then spacedName (escapeLength cs) cs
      else isNameChar c && (isSpace c || spacedName 0 cs)

theorem spacedName_char {c : Char} (hc : isNameChar c = true) (cs : List Char) :
    spacedName 0 (c :: cs) = (isSpace c || spacedName 0 cs) := by
  rw [spacedName, ne_backslash_of_isNameChar hc, hc]
  rfl

theorem spacedName_escape {escape rest : List Char} (h : Escape escape rest) :
    spacedName 0 ('\\' :: (escape ++ rest)) = spacedName 0 rest := by
  have hskip : ∀ passed : List Char, spacedName passed.length (passed ++ rest) = spacedName 0 rest := by
    intro passed
    induction passed with
    | nil => rfl
    | cons c passed ih => exact ih
  rw [spacedName, if_pos (by decide), h.length_eq, hskip]

/-- Does a part of a branch end with a comma, or with digits and the space that ends them? -/
def endsLoose (text : List Char) : Bool :=
  match text.reverse with
  | c :: d :: _ => c == ',' || isSpace c && isHexDigit d
  | _ => false

theorem endsLoose_concat {c : Char} (hcomma : (c == ',') = false) (hspace : isSpace c = false)
    (text : List Char) : endsLoose (text ++ [c]) = false := by
  rw [endsLoose, List.reverse_append, List.reverse_singleton, List.singleton_append]
  cases text.reverse with
  | nil => rfl
  | cons d ds =>
      dsimp only
      rw [hcomma, hspace]
      rfl

/-- A text that starts with neither a comma nor a space ends as it does by itself. -/
theorem endsLoose_append {text : List Char} (hne : text ≠ [])
    (hhead : headIs (fun c => c == ',' || isSpace c) text = false) (before : List Char) :
    endsLoose (before ++ text) = endsLoose text := by
  cases hreverse : text.reverse with
  | nil => exact absurd (List.reverse_eq_nil_iff.1 hreverse) hne
  | cons c ds =>
      cases ds with
      | nil =>
          obtain rfl : text = [c] := List.reverse_eq_iff.1 hreverse
          obtain ⟨hcomma, hspace⟩ := Bool.or_eq_false_iff.1 hhead
          exact endsLoose_concat hcomma hspace before
      | cons d ds =>
          rw [endsLoose, endsLoose, List.reverse_append, hreverse]
          rfl

/-- Does a text that follows another one leave spaces loose?  An empty text changes nothing. -/
def looseAfter (loose : Bool) (text : List Char) : Bool :=
  if text.isEmpty then loose else endsLoose text

/-! ## Branches -/

/-- How many characters the part that starts with `c` takes of the text after `c`. -/
def partLength (c : Char) (cs : List Char) : Nat :=
  match readPart (fun _ => .ok []) c cs with
  | .ok (_, n) => n
  | .error _ => 0

/-- How long a part is does not depend on the branches nested in it. -/
theorem partLength_eq {nested : ListReader} {c : Char} {cs : List Char} {part : Part} {n : Nat}
    (h : readPart nested c cs = .ok (part, n)) : partLength c cs = n := by
  suffices hread : ∃ again, readPart (fun _ => .ok []) c cs = .ok (again, n) by
    obtain ⟨again, hagain⟩ := hread
    rw [partLength, hagain]
  by_cases hc : c = ':'
  · subst hc
    rw [readPart] at h ⊢
    obtain ⟨marks, text, rest, name, rfl, hmarks, -, hname, hat⟩ := exists_of_readPseudo h
    rw [readPseudo_eq hmarks hat hname] at h ⊢
    cases hopen : headIs (· == '(') rest with
    | false =>
        rw [readArgument_of_head hopen] at h ⊢
        cases h
        exact ⟨_, rfl⟩
    | true =>
        cases rest with
        | nil => cases hopen
        | cons d rest =>
            obtain rfl : d = '(' := beq_iff_eq.1 hopen
            obtain ⟨argument, hargument, -, rfl⟩ := exists_of_readArgument h
            obtain ⟨again, hagain⟩ : ∃ again,
                argumentPart (fun _ => .ok []) (.ofList (lower name)) argument = .ok again := by
              rw [argumentPart]
              split
              · exact ⟨_, rfl⟩
              split
              · exact ⟨_, rfl⟩
              · exact ⟨_, rfl⟩
            refine ⟨again, ?_⟩
            rw [readArgument, hargument]
            simp only [bind, Except.bind, hagain]
            rfl
  · refine ⟨part, ?_⟩
    rw [← h, readPart.eq_def, readPart.eq_def nested]
    split
    all_goals first | rfl | exact absurd rfl hc

/-- Is something found at a part of the rest of a branch, after `skip` characters which belong to the last
part?  It is told whether the part before it ends loose, whether spaces came since then, and the text
from the part on. -/
def anyPart (found : (loose spaced : Bool) → List Char → Bool) (loose spaced : Bool) :
    (skip : Nat) → List Char → Bool
  | _, [] => false
  | skip + 1, _ :: cs => anyPart found loose spaced skip cs
  | 0, c :: cs =>
      if isSpace c then anyPart found loose true 0 cs
      else if (combinator? c).isSome then anyPart found false false 0 cs
      else
        found loose spaced (c :: cs) ||
          anyPart found (endsLoose (c :: cs.take (partLength c cs))) false (partLength c cs) cs

/-- Spaces between two parts are lost if the part in front ends loose. -/
def gapLost (loose spaced : Bool) (_ : List Char) : Bool := loose && spaced

/-- Does a branch have spaces between two parts that minifying loses? -/
def losesGap (text : List Char) : Bool := anyPart gapLost false false 0 text

/-- The characters that stand in front of a name. -/
def isMark (c : Char) : Bool := c == '.' || c == '#' || c == ':'

/-- Is the first part written with a space in its name? -/
def startsSpaced (_ _ : Bool) (text : List Char) : Bool := spacedName 0 (text.dropWhile isMark)

/-- Does a branch have a name with a space that does not belong to an escape? -/
def hasSpacedName (text : List Char) : Bool := anyPart startsSpaced false false 0 text

/-- Does a branch lose a gap? -/
def lossy (text : String) : Bool := losesGap text.toList

/-- Does a branch have a name with a space? -/
def nameSpaced (text : String) : Bool := hasSpacedName text.toList

theorem anyPart_drop (found : (loose spaced : Bool) → List Char → Bool) (loose spaced : Bool)
    (skip : Nat) (cs : List Char) :
    anyPart found loose spaced skip cs = anyPart found loose spaced 0 (cs.drop skip) := by
  induction cs generalizing skip with
  | nil => simp [anyPart]
  | cons c cs ih =>
      cases skip with
      | zero => rfl
      | succ skip => exact ih skip

section Walk

variable {found : (loose spaced : Bool) → List Char → Bool} {loose spaced : Bool} {c : Char}
  {cs : List Char}

theorem anyPart_space (hc : isSpace c = true) :
    anyPart found loose spaced 0 (c :: cs) = anyPart found loose true 0 cs := by
  rw [anyPart, if_pos hc]

theorem anyPart_combinator (hc : isSpace c = false) {kind : Combinator}
    (hkind : combinator? c = some kind) :
    anyPart found loose spaced 0 (c :: cs) = anyPart found false false 0 cs := by
  rw [anyPart, if_neg (by rw [hc]; decide), hkind]
  rfl

theorem anyPart_part (hc : isSpace c = false) (hkind : combinator? c = none) {part : Part} {n : Nat}
    (hpart : readPart nested c cs = .ok (part, n)) :
    anyPart found loose spaced 0 (c :: cs) =
      (found loose spaced (c :: cs) ||
        anyPart found (endsLoose (c :: cs.take n)) false 0 (cs.drop n)) := by
  have hrest := anyPart_drop found (endsLoose (c :: cs.take n)) false n cs
  rw [anyPart, if_neg (by rw [hc]; decide), hkind, partLength_eq hpart, hrest]
  rfl

end Walk

/-! ## Names without spaces -/

/-- A name starts with neither a comma nor a space. -/
theorem NameAt.head {text rest name : List Char} (h : NameAt text rest name)
    (hspaced : spacedName 0 (text ++ rest) = false) :
    headIs (fun c => c == ',' || isSpace c) text = false := by
  cases h with
  | stop => rfl
  | @char c text _ name hchar _ =>
      rw [List.cons_append, spacedName_char hchar] at hspaced
      have hcomma : (c == ',') = false := by
        rw [beq_eq_false_iff_ne]
        rintro rfl
        cases hchar
      exact Bool.or_eq_false_iff.2 ⟨hcomma, (Bool.or_eq_false_iff.1 hspaced).1⟩
  | escape => rfl

/-- A name does not start with a mark. -/
theorem NameAt.dropWhile_marks {marks text rest name : List Char} (h : NameAt text rest name)
    (hmarks : ∀ c ∈ marks, isMark c = true) (hne : text ≠ []) :
    (marks ++ (text ++ rest)).dropWhile isMark = text ++ rest := by
  rw [List.dropWhile_append_of_pos hmarks]
  cases h with
  | stop => exact absurd rfl hne
  | @char c text _ _ hchar _ =>
      have hc : isMark c = false := by
        rw [Bool.eq_false_iff]
        intro hmark
        have hnot : ['.', '#', ':'].all (fun d => !isNameChar d) = true := by decide
        rw [Text.class_eq_false_of_all hnot c (by simpa [isMark, or_assoc] using hmark)] at hchar
        cases hchar
      rw [List.cons_append, List.dropWhile_cons_of_neg (by rw [hc]; decide)]
  | escape => rfl

end Stylesheet.Selector
