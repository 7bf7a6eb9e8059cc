import Stylesheet.Proofs.SelectorText

/-!
# Spellings of a name

A class or an id may be written in many ways: each of its characters as it is, behind a backslash, or as
the digits of its code point behind one.  `Spelling` relates a name to these texts.  All of them are read
as the name (`readList_spelled`).

A text of digits ends with a space, which belongs to it.  At the end of a selector it is trimmed off all
the same, since trimming comes first; the digits then end with the text.  So what is read is the *core* of
a spelling, and what is trimmed off is the space of its last character or nothing
(`Spelling.exists_core`).
-/

namespace Stylesheet.Selector

open Stylesheet.Text (headIs hexLength hexNumber isHexDigit isSpace scalar? trim Spaces Trimmed)

/-- A text that stands for a character in a name. -/
inductive Spells : Char → List Char → Prop where
  /-- The character itself. -/
  | itself {c : Char} : isNameChar c = true → Spells c [c]
  /-- The character after a backslash. -/
  | escaped {c : Char} : isHexDigit c = false → Spells c ['\\', c]
  /-- Up to six digits of its code point after a backslash, and a space. -/
  | code {c : Char} {digits : List Char} : digits ≠ [] → digits.length ≤ 6 →
      (∀ d ∈ digits, isHexDigit d = true) → hexNumber digits = c.toNat →
      Spells c ('\\' :: (digits ++ [' ']))

/-- A text that stands for a name, character by character. -/
inductive Spelling : List Char → List Char → Prop where
  /-- Nothing stands for nothing. -/
  | nil : Spelling [] []
  /-- One more character. -/
  | cons {c : Char} {spelled name text : List Char} : Spells c spelled → Spelling name text →
      Spelling (c :: name) (spelled ++ text)

/-! ## Reading a name -/

/-- Digits stand for the character whose code point they write. -/
theorem IsCode.escapeValue_eq {digits : List Char} (h : IsCode digits) {c : Char} (hc : c.toNat ≠ 0)
    (hnumber : hexNumber digits = c.toNat) : escapeValue digits = c := by
  obtain ⟨hne, hlength, hhex⟩ := h
  cases digits with
  | nil => exact absurd rfl hne
  | cons d digits =>
      obtain ⟨hd, hrest⟩ := List.forall_mem_cons.1 hhex
      have hscalar : scalar? c.toNat = some c := by
        rw [scalar?, if_pos (show c.toNat.isValidChar from c.valid), Char.ofNat_toNat]
      rw [escapeValue, if_pos hd, hexLength_self hrest (Nat.le_of_succ_le_succ hlength),
        List.take_length, hnumber]
      split
      · next h => exact absurd h hc
      · next h => rw [hscalar, Option.getD_some]

/-- A spelled character in front of a name is one more character of the name. -/
theorem Spells.nameAt {c : Char} {spelled : List Char} (h : Spells c spelled) (hc : c.toNat ≠ 0)
    {text rest name : List Char} (hat : NameAt text rest name) :
    NameAt (spelled ++ text) rest (c :: name) := by
  cases h with
  | itself hchar => exact .char hchar hat
  | escaped hhex =>
      have hvalue : escapeValue ([c] ++ (text ++ rest)) = c := if_neg (by rw [hhex]; decide)
      have hall := NameAt.escape (.single hhex) hat
      rwa [hvalue] at hall
  | @code digits hne hlength hdigits hnumber =>
      have hcode : IsCode digits := ⟨hne, hlength, hdigits⟩
      have hall := NameAt.escape (.spaced hcode (c := ' ') (by decide)) hat
      rw [List.append_assoc digits [' '] (text ++ rest), hcode.escapeValue_append (.inr rfl),
        hcode.escapeValue_eq hc hnumber] at hall
      exact hall

/-! ## Cores -/

/-- A spelled character without the space that trimming would take. -/
theorem Spells.exists_core {c : Char} {spelled : List Char} (h : Spells c spelled)
    (hc : c.toNat ≠ 0) (hspace : isSpace c = false) :
    ∃ core gap, spelled = core ++ gap ∧ Spaces gap ∧ core ≠ [] ∧ Trimmed core ∧
      NameAt core [] [c] := by
  have hat := h.nameAt hc (.stop rfl : NameAt [] [] [])
  rw [List.append_nil] at hat
  cases h with
  | itself hchar =>
      refine ⟨[c], [], rfl, Text.spaces_nil, by simp, Text.trimmed_of_plain ?_, hat⟩
      exact List.forall_mem_singleton.2 hspace
  | escaped hhex =>
      refine ⟨['\\', c], [], rfl, Text.spaces_nil, by simp, Text.trimmed_of_plain ?_, hat⟩
      exact List.forall_mem_cons.2 ⟨rfl, List.forall_mem_singleton.2 hspace⟩
  | @code digits hne hlength hdigits hnumber =>
      have hcode : IsCode digits := ⟨hne, hlength, hdigits⟩
      have hend := NameAt.escape (.code hcode (.inr rfl) rfl) (.stop rfl : NameAt [] [] [])
      rw [List.append_nil, List.append_nil, List.append_nil, hcode.escapeValue_eq hc hnumber] at hend
      refine ⟨'\\' :: digits, [' '], rfl, by simp [Spaces, isSpace], by simp,
        Text.trimmed_of_plain ?_, hend⟩
      exact List.forall_mem_cons.2 ⟨rfl, fun d hd => isSpace_of_isHexDigit (hdigits d hd)⟩

theorem Spells.trimmed_append {c : Char} {spelled core : List Char} (h : Spells c spelled)
    (hspace : isSpace c = false) (hcore : Trimmed core) (hne : core ≠ []) :
    Trimmed (spelled ++ core) := by
  cases h with
  | itself hchar =>
      exact Text.Trimmed.append (Text.trimmed_of_plain (List.forall_mem_singleton.2 hspace)) hcore
        (by simp) hne []
  | escaped hhex =>
      exact Text.Trimmed.append (a := ['\\']) ⟨rfl, rfl⟩ hcore (by simp) hne [c]
  | @code digits _ _ _ _ =>
      exact Text.Trimmed.append (a := ['\\']) ⟨rfl, rfl⟩ hcore (by simp) hne (digits ++ [' '])

/-- A spelling without the space that trimming takes is read as the name. -/
theorem Spelling.exists_core {name text : List Char} (h : Spelling name text) (hne : name ≠ [])
    (hname : ∀ c ∈ name, isSpace c = false ∧ c.toNat ≠ 0) :
    ∃ core gap, text = core ++ gap ∧ Spaces gap ∧ core ≠ [] ∧ Trimmed core ∧
      NameAt core [] name := by
  induction h with
  | nil => exact absurd rfl hne
  | @cons c spelled name text hspells hrest ih =>
      obtain ⟨⟨hspace, hc⟩, hname⟩ := List.forall_mem_cons.1 hname
      by_cases hnil : name = []
      · subst hnil
        cases hrest
        rw [List.append_nil]
        exact hspells.exists_core hc hspace
      · obtain ⟨core, gap, rfl, hgap, hcore, htrimmed, hat⟩ := ih hnil hname
        exact ⟨spelled ++ core, gap, (List.append_assoc _ _ _).symm, hgap, by simp [hcore],
          hspells.trimmed_append hspace htrimmed hcore, hspells.nameAt hc hat⟩

/-! ## Selectors -/

/-- A spelled character leaves nothing open. -/
theorem Spells.along {c : Char} {spelled : List Char} (h : Spells c spelled) :
    Place.start.along spelled = some Place.start := by
  cases h with
  | itself hchar =>
      exact Place.along_start (List.forall_mem_singleton.2 (Text.not_mem_of_class rfl hchar))
  | escaped hhex => rfl
  | @code digits hne hlength hdigits hnumber =>
      have hescape : Escape (digits ++ [' ']) [] := .spaced ⟨hne, hlength, hdigits⟩ rfl
      exact (show Place.start.along ('\\' :: (digits ++ [' '])) = _ from hescape.along)

theorem Spelling.along {name text : List Char} (h : Spelling name text) :
    Place.start.along text = some Place.start := by
  induction h with
  | nil => rfl
  | cons hspells _ ih =>
      rw [Place.along_append, hspells.along]
      exact ih

/-- Nothing is read in what belongs to the last part. -/
theorem readParts_skip (nested : ListReader) (spaced : Bool) (cs : List Char) :
    readParts nested .simple spaced cs.length cs = .ok [] := by
  induction cs with
  | nil => rfl
  | cons c cs ih => exact ih

/-- What markup calls an element by. -/
inductive Naming where
  /-- One of its classes. -/
  | cls
  /-- Its id. -/
  | id
deriving DecidableEq, Repr

namespace Naming

/-- The character in front of the name in a selector. -/
def mark : Naming → Char
  | cls => '.'
  | id => '#'

/-- The part of a branch. -/
def part : Naming → String → Part
  | cls => .cls
  | id => .id

variable (naming : Naming)

/-- The selector of a mark and a text. -/
def selector (text : List Char) : String := String.ofList (naming.mark :: text)

theorem readPart_mark (nested : ListReader) {cs name : List Char} (hne : name ≠ [])
    (h : NameAt cs [] name) :
    readPart nested naming.mark cs = .ok (naming.part (String.ofList name), cs.length) := by
  have hafter : ∀ mark, nameAfter mark cs = .ok (name, cs.length) := by
    intro mark
    have hall := h.nameAfter_eq hne mark
    rwa [List.append_nil] at hall
  cases naming with
  | cls =>
      show readPart nested '.' cs = _
      rw [readPart, hafter]
      rfl
  | id =>
      show readPart nested '#' cs = _
      rw [readPart, hafter]
      rfl

/-- A selector of a mark and a name is read as that, however the name is spelled. -/
theorem readList_spelled {name text : List Char} (h : Spelling name text) (hne : name ≠ [])
    (hname : ∀ c ∈ name, isSpace c = false ∧ c.toNat ≠ 0) :
    readList (naming.selector text) =
      .ok [⟨Text.strip (naming.selector text), [naming.part (String.ofList name)]⟩] := by
  obtain ⟨core, gap, rfl, hgap, hcore, htrimmed, hat⟩ := h.exists_core hne hname
  have hmark : naming.mark ∉ cuttingMarks ∧
      isSpace naming.mark = false ∧ combinator? naming.mark = none := by
    cases naming with
    | cls => decide
    | id => decide
  have halong : Place.start.along (naming.mark :: (core ++ gap)) = some Place.start := by
    rw [Place.along, Place.next_start hmark.1]
    exact h.along
  have htrim : trim (naming.mark :: (core ++ gap)) = naming.mark :: core := by
    have hall : Trimmed (naming.mark :: core) :=
      Text.Trimmed.append (a := [naming.mark]) (Text.trimmed_of_plain
        (List.forall_mem_singleton.2 hmark.2.1)) htrimmed (by simp) hcore []
    exact Text.trim_eq_of_trimmed Text.spaces_nil hall hgap
  have hparts : ∀ nested, readParts nested .none false 0 (naming.mark :: core) =
      .ok [naming.part (String.ofList name)] := by
    intro nested
    rw [readParts, if_neg (by rw [hmark.2.1]; decide), hmark.2.2]
    dsimp only
    rw [naming.readPart_mark nested hne hat]
    show (readParts nested .simple false core.length core >>= _) = _
    rw [readParts_skip]
    rfl
  rw [readList, selector, String.toList_ofList, String.length_ofList,
    readListWithin_self (Nat.le_refl _), readListWith,
    show splitBranches _ = _ from Place.split_last halong]
  refine mapM_of_forall₂ (.cons ?_ .nil)
  rw [htrim, readTrimmed, hparts, Text.strip, String.toList_ofList, htrim]
  rfl

end Naming

end Stylesheet.Selector
