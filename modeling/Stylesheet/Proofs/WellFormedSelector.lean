import Stylesheet.Proofs.DeclarationText
import Stylesheet.Proofs.SelectorText

/-!
# What a selector that can be read is like

`readList_wellFormed`: a list that can be read has a branch, and each of its branches, those of nested
lists at any depth included, is a slice of the selector that is read as its parts by itself.  The parts of a
branch go by a small grammar (`Follows`): a branch does not end with a combinator, and the combinator that
spaces write stands between two parts that are none.

The readers are mutually recursive, so the proof goes in two steps.  Everything about the parts of one
branch is an induction over the run that reads them (`Run`).  A nested list is in turn the list that is
read from the argument of a part (`exists_argument`), so what holds of the branches of every list holds of
nested ones.
-/

namespace Stylesheet.Selector

open Stylesheet.Text (headIs isSpace lower trim IsLower Trimmed)

/-! ## The grammar of parts -/

/-- The parts that may follow a last part. -/
inductive Follows : Last → List Part → Prop where
  /-- Nothing more, if the last part is no combinator. -/
  | nil : Follows .simple []
  /-- A combinator that is written. -/
  | combinator {last : Last} {kind : Combinator} {parts : List Part} : kind ≠ .descendant →
      Follows .combinator parts → Follows last (.combinator kind :: parts)
  /-- Any other part. -/
  | part {last : Last} {part : Part} {parts : List Part} : part.isCombinator = false →
      Follows .simple parts → Follows last (part :: parts)
  /-- Spaces between two parts that are no combinators. -/
  | descendant {part : Part} {parts : List Part} : part.isCombinator = false →
      Follows .simple parts → Follows .simple (.combinator .descendant :: part :: parts)

/-- Does a part stand at one place, and is it no combinator? -/
def Simple (part : Option Part) : Prop := ∃ p, part = some p ∧ p.isCombinator = false

theorem Simple.getLast?_cons {parts : List Part} (h : Simple parts.getLast?) (part : Part) :
    Simple (part :: parts).getLast? := by
  obtain ⟨p, hp, hsimple⟩ := h
  refine ⟨p, ?_, hsimple⟩
  rw [List.getLast?_cons, hp]
  rfl

/-- A branch ends with a part that is no combinator. -/
theorem Follows.getLast? {last : Last} {parts : List Part} (h : Follows last parts) :
    (last = .simple ∧ parts = []) ∨ Simple parts.getLast? := by
  induction h with
  | nil => exact .inl ⟨rfl, rfl⟩
  | combinator _ _ ih =>
      rcases ih with ⟨hlast, -⟩ | ih
      · cases hlast
      · exact .inr (ih.getLast?_cons _)
  | part hpart _ ih =>
      rcases ih with ⟨-, rfl⟩ | ih
      · exact .inr ⟨_, rfl, hpart⟩
      · exact .inr (ih.getLast?_cons _)
  | descendant hpart _ ih =>
      rcases ih with ⟨-, rfl⟩ | ih
      · exact .inr ⟨_, rfl, hpart⟩
      · exact .inr ((ih.getLast?_cons _).getLast?_cons _)

/-- Spaces are a combinator between two parts that are none. -/
theorem Follows.descendant_between {last : Last} {parts before after : List Part}
    (h : Follows last parts) (hparts : parts = before ++ .combinator .descendant :: after) :
    ((last = .simple ∧ before = []) ∨ Simple before.getLast?) ∧ Simple after.head? := by
  induction h generalizing before with
  | nil => cases before <;> cases hparts
  | combinator hkind _ ih =>
      cases before with
      | nil =>
          cases hparts
          exact absurd rfl hkind
      | cons p before =>
          obtain ⟨rfl, hrest⟩ := List.cons.inj hparts
          obtain ⟨⟨hlast, -⟩ | hbefore, hafter⟩ := ih hrest
          · cases hlast
          · exact ⟨.inr (hbefore.getLast?_cons _), hafter⟩
  | part hpart _ ih =>
      cases before with
      | nil =>
          cases hparts
          cases hpart
      | cons p before =>
          obtain ⟨rfl, hrest⟩ := List.cons.inj hparts
          obtain ⟨⟨-, rfl⟩ | hbefore, hafter⟩ := ih hrest
          · exact ⟨.inr ⟨_, rfl, hpart⟩, hafter⟩
          · exact ⟨.inr (hbefore.getLast?_cons _), hafter⟩
  | @descendant part parts hpart _ ih =>
      cases before with
      | nil =>
          obtain ⟨-, rfl⟩ := List.cons.inj hparts
          exact ⟨.inl ⟨rfl, rfl⟩, part, rfl, hpart⟩
      | cons p before =>
          obtain ⟨-, hrest⟩ := List.cons.inj hparts
          cases before with
          | nil =>
              cases hrest
              cases hpart
          | cons q before =>
              have htail : part :: parts = q :: (before ++ .combinator .descendant :: after) := hrest
              obtain ⟨rfl, hends⟩ := List.cons.inj htail
              obtain ⟨⟨-, rfl⟩ | hbefore, hafter⟩ := ih hends
              · exact ⟨.inr ⟨_, rfl, hpart⟩, hafter⟩
              · exact ⟨.inr ((hbefore.getLast?_cons _).getLast?_cons _), hafter⟩

/-! ## Names -/

/-- The names of a part are as the reader gives them. -/
def Part.WellNamed : Part → Prop
  | .tag name => name ≠ "" ∧ IsLower name.toList
  | .id name => name ≠ ""
  | .cls name => name ≠ ""
  | .pseudo name argument => name ≠ "" ∧ IsLower name.toList ∧ (argument ≠ none → name ∉ listPseudos)
  | .functional name _ => name ≠ "" ∧ IsLower name.toList ∧ name ∈ listPseudos
  | .universal => True
  | .combinator _ => True
  | .attribute _ => True
  | .other _ => True

theorem isLower_ofList_lower (name : List Char) : IsLower (String.ofList (lower name)).toList := by
  rw [String.toList_ofList]
  exact Text.isLower_lower name

theorem ofList_ne_empty {name : List Char} (h : name ≠ []) : String.ofList name ≠ "" := by
  rw [ne_eq, ← String.toList_inj, String.toList_ofList]
  exact h

theorem lower_ne_nil {name : List Char} (h : name ≠ []) : lower name ≠ [] := by
  rwa [lower, ne_eq, List.map_eq_nil_iff]

/-! ## Parts -/

/-- What is known of a part that was read from a text. -/
structure Part.ReadFrom (nested : ListReader) (cs : List Char) (part : Part) : Prop where
  /-- It is no combinator. -/
  simple : part.isCombinator = false
  /-- Its names are as they should be. -/
  named : part.WellNamed
  /-- Its branches, if there are any, are read from a slice of the text. -/
  argument : ∀ name branches, part = .functional name branches →
    branches = [] ∨ ∃ argument, argument <:+: cs ∧ nested argument = .ok branches

variable {nested : ListReader} {cs : List Char} {part : Part} {n : Nat}

theorem readFrom_argumentPart {name : List Char} {argument : List Char} (hne : name ≠ [])
    (h : argumentPart nested (.ofList (lower name)) argument = .ok part) (hcs : argument <:+: cs) :
    part.ReadFrom nested cs := by
  have hname := ofList_ne_empty (lower_ne_nil hne)
  have hlower := isLower_ofList_lower name
  rw [argumentPart] at h
  split at h
  · next hother =>
      cases h
      have hnot : String.ofList (lower name) ∉ listPseudos := by simpa using hother
      exact ⟨rfl, ⟨hname, hlower, fun _ => hnot⟩, fun _ _ hpart => by cases hpart⟩
  next hlist =>
  have hmem : String.ofList (lower name) ∈ listPseudos := by simpa using hlist
  split at h
  · cases h
    refine ⟨rfl, ⟨hname, hlower, hmem⟩, ?_⟩
    rintro _ _ ⟨⟩
    exact .inl rfl
  · obtain ⟨branches, hbranches, rfl⟩ := exists_of_bind_pure h
    refine ⟨rfl, ⟨hname, hlower, hmem⟩, ?_⟩
    rintro _ _ ⟨⟩
    exact .inr ⟨argument, hcs, hbranches⟩

theorem readFrom_readPseudo (h : readPseudo nested cs = .ok (part, n)) :
    part.ReadFrom nested cs := by
  obtain ⟨marks, text, rest, name, rfl, hmarks, -, hne, hat⟩ := exists_of_readPseudo h
  rw [readPseudo_eq hmarks hat hne] at h
  cases hopen : headIs (· == '(') rest with
  | false =>
      rw [readArgument_of_head hopen] at h
      cases h
      exact ⟨rfl, ⟨ofList_ne_empty (lower_ne_nil hne), isLower_ofList_lower name, fun h => absurd rfl h⟩,
        fun _ _ hpart => by cases hpart⟩
  | true =>
      cases rest with
      | nil => cases hopen
      | cons c rest =>
          obtain rfl : c = '(' := beq_iff_eq.1 hopen
          obtain ⟨argument, hargument, hpart, -⟩ := exists_of_readArgument h
          obtain ⟨behind, rfl, -⟩ := inside_of_untilClose hargument
          refine readFrom_argumentPart hne hpart ⟨marks ++ (text ++ ['(']), ')' :: behind, ?_⟩
          simp

theorem readFrom_readPart {c : Char} (h : readPart nested c cs = .ok (part, n)) :
    part.ReadFrom nested cs := by
  have hcases := h
  rw [readPart.eq_def] at hcases
  split at hcases
  · cases hcases
    exact ⟨rfl, trivial, fun _ _ hpart => by cases hpart⟩
  · obtain ⟨⟨name, m⟩, hname, hpart⟩ := exists_of_bind_pure hcases
    obtain ⟨-, -, -, -, -, hne, -⟩ := nameAt_of_nameAfter hname
    cases hpart
    exact ⟨rfl, ofList_ne_empty hne, fun _ _ hpart => by cases hpart⟩
  · obtain ⟨⟨name, m⟩, hname, hpart⟩ := exists_of_bind_pure hcases
    obtain ⟨-, -, -, -, -, hne, -⟩ := nameAt_of_nameAfter hname
    cases hpart
    exact ⟨rfl, ofList_ne_empty hne, fun _ _ hpart => by cases hpart⟩
  · obtain ⟨text, -, hpart⟩ := exists_of_bind_pure hcases
    cases hpart
    exact ⟨rfl, trivial, fun _ _ hpart => by cases hpart⟩
  · exact readFrom_readPseudo hcases
  · cases hcases
    exact ⟨rfl, trivial, fun _ _ hpart => by cases hpart⟩
  · cases hcases
    exact ⟨rfl, trivial, fun _ _ hpart => by cases hpart⟩
  · cases hcases
  · cases hcases
  · split at hcases
    · next hc =>
        obtain ⟨text, rest, name, -, -, hat, rfl⟩ := exists_of_readPart_tag hc h
        have hne : name ≠ [] := by cases hat <;> simp
        exact ⟨rfl, ⟨ofList_ne_empty (lower_ne_nil hne), isLower_ofList_lower name⟩,
          fun _ _ hpart => by cases hpart⟩
    · cases hcases

theorem Part.ReadFrom.mono {ds : List Char} (h : part.ReadFrom nested cs) (hcs : cs <:+: ds) :
    part.ReadFrom nested ds := by
  refine ⟨h.simple, h.named, ?_⟩
  intro name branches hpart
  obtain hnone | ⟨argument, hargument, hread⟩ := h.argument name branches hpart
  · exact .inl hnone
  · exact .inr ⟨argument, hargument.trans hcs, hread⟩

/-! ## Runs -/

variable {last : Last} {spaced : Bool} {parts : List Part}

theorem ne_descendant_of_combinator? {c : Char} {kind : Combinator} (h : combinator? c = some kind) :
    kind ≠ .descendant := by
  rintro rfl
  obtain rfl | rfl | rfl := combinator?_cases h
  all_goals cases h

theorem Run.follows (h : Run nested last spaced cs parts) : Follows last parts := by
  induction h with
  | stop => exact .nil
  | space _ _ ih => exact ih
  | combinator _ hkind _ ih => exact .combinator (ne_descendant_of_combinator? hkind) ih
  | part _ _ hpart _ ih =>
      have hsimple := (readFrom_readPart hpart).simple
      rw [descendantIf]
      split
      · next hspaced =>
          obtain ⟨-, hlast⟩ := Bool.and_eq_true_iff.1 hspaced
          rw [beq_iff_eq.1 hlast]
          exact .descendant hsimple ih
      · exact .part hsimple ih

/-- Every part of a branch is a combinator or was read from a slice of its text. -/
theorem Run.readFrom (h : Run nested last spaced cs parts) :
    ∀ part ∈ parts, part.isCombinator = true ∨ part.ReadFrom nested cs := by
  induction h with
  | stop =>
      intro part hmem
      cases hmem
  | @space _ _ c cs _ _ _ ih =>
      intro part hmem
      exact (ih part hmem).imp_right fun hread => hread.mono (List.suffix_cons c cs).isInfix
  | @combinator _ _ c cs _ _ _ _ _ ih =>
      intro part hmem
      rcases List.mem_cons.1 hmem with rfl | hmem
      · exact .inl rfl
      · exact (ih part hmem).imp_right fun hread => hread.mono (List.suffix_cons c cs).isInfix
  | @part last spaced c cs _ n _ _ _ hpart _ ih =>
      intro part hmem
      have hcs := (List.suffix_cons c cs).isInfix
      rcases List.mem_append.1 hmem with hmem | hmem
      · rw [eq_of_mem_descendantIf hmem]
        exact .inl rfl
      rcases List.mem_cons.1 hmem with rfl | hmem
      · exact .inr ((readFrom_readPart hpart).mono hcs)
      · exact (ih part hmem).imp_right fun hread =>
          hread.mono ((List.drop_suffix n cs).isInfix.trans hcs)

/-! ## Branches -/

/-- The pieces of a list are slices of it. -/
theorem Place.slice_of_split {pieces : List (List Char)} (h : start.split cs = .ok pieces) :
    ∀ piece ∈ pieces, piece <:+: cs := by
  induction hlength : cs.length using Nat.strong_induction_on generalizing cs pieces with
  | _ length ih =>
      subst hlength
      obtain ⟨rfl, -⟩ | ⟨piece, rest, others, rfl, rfl, -, hothers⟩ := split_cases h
      · exact List.forall_mem_singleton.2 (List.infix_refl cs)
      · refine List.forall_mem_cons.2 ⟨(List.prefix_append _ _).isInfix, ?_⟩
        intro other hother
        have hrest : rest <:+: piece ++ ',' :: rest := ⟨piece ++ [','], [], by simp⟩
        have hshort : rest.length < (piece ++ ',' :: rest).length := by
          rw [List.length_append, List.length_cons]
          omega
        exact (ih _ hshort hothers rfl other hother).trans hrest

/-- A branch of a list is a slice of it and is read from that slice. -/
theorem run_of_readList {selector : String} {branches : List Branch}
    (h : readList selector = .ok branches) {b : Branch} (hb : b ∈ branches) :
    b.text.toList <:+: selector.toList ∧
      Run (readListWithin selector.length) .none false b.text.toList b.parts := by
  obtain ⟨pieces, hpieces, hbranches⟩ := exists_pieces_of_readList h
  obtain ⟨piece, hpiece, hread⟩ := exists_of_mem_mapM hbranches hb
  obtain ⟨parts, hparts, rfl⟩ := exists_of_bind_pure hread
  rw [String.toList_ofList]
  exact ⟨(Text.trim_slice piece).trans (Place.slice_of_split hpieces piece hpiece),
    run_of_readParts hparts⟩

theorem ne_nil_of_readList {selector : String} {branches : List Branch}
    (h : readList selector = .ok branches) : branches ≠ [] := by
  obtain ⟨pieces, hpieces, hbranches⟩ := exists_pieces_of_readList h
  obtain ⟨piece, rest, rfl, -⟩ := Place.along_of_split (s := .start) hpieces
  cases forall₂_of_mapM hbranches with
  | cons => exact List.cons_ne_nil _ _

/-- The branches in a part are none, or the list that a slice of the selector is read as. -/
theorem exists_argument {selector : String} {branches inner : List Branch} {outer : Branch}
    {name : String} (h : readList selector = .ok branches) (houter : outer ∈ branches)
    (hpart : .functional name inner ∈ outer.parts) :
    inner = [] ∨ ∃ argument : String, argument.toList <:+: selector.toList ∧
      readList argument = .ok inner := by
  obtain ⟨hslice, hrun⟩ := run_of_readList h houter
  obtain hcombinator | hread := hrun.readFrom _ hpart
  · cases hcombinator
  obtain hnone | ⟨argument, hargument, hinner⟩ := hread.argument name inner rfl
  · exact .inl hnone
  · have hwithin := hargument.trans hslice
    refine .inr ⟨.ofList argument, by rwa [String.toList_ofList], ?_⟩
    have hlength := hwithin.length_le
    rw [String.length_toList] at hlength
    rw [readList, String.toList_ofList, String.length_ofList, ← hinner]
    exact readListWithin_eq (Nat.le_refl _) hlength

/-- A branch of some list, or of a list nested in it at any depth. -/
inductive Branch.Occurs (b : Branch) : List Branch → Prop where
  /-- It is one of the list. -/
  | here {branches : List Branch} : b ∈ branches → b.Occurs branches
  /-- It occurs in the argument of a part. -/
  | nested {branches inner : List Branch} {outer : Branch} {name : String} : outer ∈ branches →
      .functional name inner ∈ outer.parts → b.Occurs inner → b.Occurs branches

/-- A branch of a selector as the reader gives it. -/
structure Branch.WellFormed (selector : List Char) (b : Branch) : Prop where
  /-- Its text is trimmed. -/
  trimmed : Trimmed b.text.toList
  /-- Its text is not empty. -/
  text_ne : b.text ≠ ""
  /-- Its text is a slice of the selector. -/
  slice : b.text.toList <:+: selector
  /-- By itself its text is read as the same parts. -/
  reads : readBranch b.text = .ok b.parts
  /-- It has a last part, which is no combinator. -/
  ends : Simple b.parts.getLast?
  /-- Where spaces are a combinator, there is a part right before and one right after them, and neither
  is a combinator. -/
  spaced : ∀ before after, b.parts = before ++ .combinator .descendant :: after →
    Simple before.getLast? ∧ Simple after.head?
  /-- The names of its parts are as they should be. -/
  named : ∀ part ∈ b.parts, part.WellNamed

theorem wellFormed_of_mem {selector : String} {branches : List Branch}
    (h : readList selector = .ok branches) {b : Branch} (hb : b ∈ branches) :
    b.WellFormed selector.toList := by
  have hstanding := standing_of_readList h hb
  obtain ⟨hslice, hrun⟩ := run_of_readList h hb
  refine ⟨hstanding.trimmed, ?_, hslice, ?_, ?_, ?_, ?_⟩
  · intro htext
    rw [htext] at hrun
    cases hrun
  · obtain ⟨parts, hparts, hbranch⟩ := exists_of_bind_pure hstanding.reads
    rw [readBranch, hparts, hbranch]
  · obtain ⟨hlast, -⟩ | hlast := hrun.follows.getLast?
    · cases hlast
    · exact hlast
  · intro before after hparts
    obtain ⟨⟨hlast, -⟩ | hbefore, hafter⟩ := hrun.follows.descendant_between hparts
    · cases hlast
    · exact ⟨hbefore, hafter⟩
  · intro part hpart
    obtain hcombinator | hread := hrun.readFrom part hpart
    · cases part with
      | combinator kind => exact trivial
      | _ => cases hcombinator
    · exact hread.named

/-- A selector that can be read has a branch, and all of its branches, nested ones included, are well
formed. -/
theorem readList_wellFormed {selector : String} {branches : List Branch}
    (h : readList selector = .ok branches) :
    branches ≠ [] ∧ ∀ b : Branch, b.Occurs branches → b.WellFormed selector.toList := by
  refine ⟨ne_nil_of_readList h, ?_⟩
  intro b hb
  induction hb generalizing selector with
  | here hmem => exact wellFormed_of_mem h hmem
  | @nested branches inner outer name houter hpart hb ih =>
      obtain rfl | ⟨argument, hargument, hinner⟩ := exists_argument h houter hpart
      · -- A blank argument holds no branch.
        cases hb with
        | here hmem => cases hmem
        | nested hmem => cases hmem
      · have hformed := ih hinner
        exact { hformed with slice := hformed.slice.trans hargument }

/-- The branch in the argument of a pseudo-class in upper case, with two combinators in front. -/
theorem readList_wellFormed_nested :
    Branch.WellFormed "A:IS( > ~ B C )".toList ⟨"> ~ B C", [.combinator .child,
      .combinator .sibling, .tag "b", .combinator .descendant, .tag "c"]⟩ := by
  have hread : readList "A:IS( > ~ B C )" = .ok [⟨"A:IS( > ~ B C )", [.tag "a", .functional "is"
      [⟨"> ~ B C", [.combinator .child, .combinator .sibling, .tag "b", .combinator .descendant,
        .tag "c"]⟩]]⟩] := by cbv
  refine (readList_wellFormed hread).2 _ ?_
  exact .nested (List.mem_singleton.2 rfl) (List.mem_cons_of_mem _ (List.mem_singleton.2 rfl))
    (.here (List.mem_singleton.2 rfl))

end Stylesheet.Selector
