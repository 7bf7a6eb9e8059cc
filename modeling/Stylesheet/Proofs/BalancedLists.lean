import Stylesheet.Proofs.SelectorText

/-!
# Brackets and quotes are checked once

The brackets of a selector list are balanced when it is cut at its commas, with a stack of the brackets of
both kinds that are open.  The reader of parts looks for the end of an attribute or an argument again, but
counts brackets of one kind only.  `readList_balanced` says that the two agree: once a list has been cut, no
reader of a branch, nested lists included, meets a bracket or quote that is not closed, or one that closes
nothing.

Three things carry this.

* A step of the cutting outside a bracket is the same step inside it, up to the bracket that ends it
  (`exists_inside`).  So the depth that the reader counts is the number of brackets of that kind on the stack.
* What stands in the brackets can be cut by itself, which is what a nested list needs.
* A branch is trimmed.  Where the space that is taken off belongs to an escape, the backslash is left
  dangling, so a trimmed branch *closes*: nothing is open at its end but perhaps a backslash.
-/

namespace Stylesheet.Selector

open Stylesheet.Text (consFirst headIs isHexDigit isSpace trim Spaces)

/-! ## Texts that close, texts that can be cut -/

namespace Place

/-- Nothing is open behind the text but perhaps a backslash. -/
def Closes (s : Place) (cs : List Char) : Prop := ∃ escaped, s.along cs = some ⟨[], none, escaped⟩

/-- The text can be cut at its commas. -/
def Cuts (s : Place) (cs : List Char) : Prop := ∃ pieces, s.split cs = .ok pieces

theorem Closes.exists_step {s : Place} {c : Char} {cs : List Char} (h : s.Closes (c :: cs)) :
    ∃ t, Step s c t ∧ t.Closes cs := by
  obtain ⟨escaped, halong⟩ := h
  obtain ⟨t, hstep, ht⟩ := Place.exists_step halong
  exact ⟨t, hstep, escaped, ht⟩

theorem Closes.of_append {s t : Place} {a b : List Char} (h : s.Closes (a ++ b))
    (ha : s.along a = some t) : t.Closes b := by
  obtain ⟨escaped, halong⟩ := h
  rw [along_append, ha] at halong
  exact ⟨escaped, halong⟩

/-- What is no mark leaves nothing open. -/
theorem Closes.tail {c : Char} {cs : List Char} (h : start.Closes (c :: cs)) (hc : c ∉ cuttingMarks) :
    start.Closes cs := by
  refine h.of_append (a := [c]) ?_
  rw [along, next_start hc]
  rfl

theorem Step.cuts {s t : Place} {c : Char} {cs : List Char} (h : Step s c t) (ht : t.Cuts cs) :
    s.Cuts (c :: cs) := by
  obtain ⟨pieces, hpieces⟩ := ht
  refine ⟨consFirst c pieces, ?_⟩
  rw [h.split_eq, hpieces]
  rfl

theorem cuts_comma {cs : List Char} (h : start.Cuts cs) : start.Cuts (',' :: cs) := by
  obtain ⟨pieces, hpieces⟩ := h
  refine ⟨[] :: pieces, ?_⟩
  have hsplit : start.split ([] ++ ',' :: cs) = List.cons [] <$> start.split cs := split_append rfl cs
  rw [List.nil_append, hpieces] at hsplit
  exact hsplit

end Place

/-! ## Brackets inside a branch -/

section Inside

open Place (start Step)

variable {opening closing : Char}

/-- A bracket of another kind does not count. -/
theorem Brackets.of_ne {c d : Char} (h : Brackets opening closing) (hcd : Brackets c d)
    (hc : c ≠ opening) :
    c ∉ ['\\', '"', '\'', opening, closing] ∧ d ∉ ['\\', '"', '\'', opening, closing] := by
  rcases h.cases with ⟨rfl, rfl⟩ | ⟨rfl, rfl⟩
  · rcases hcd.cases with ⟨rfl, rfl⟩ | ⟨rfl, rfl⟩
    · exact absurd rfl hc
    · decide
  · rcases hcd.cases with ⟨rfl, rfl⟩ | ⟨rfl, rfl⟩
    · decide
    · exact absurd rfl hc

theorem Brackets.closing_unique {d : Char} (h : Brackets opening closing)
    (hd : Brackets opening d) : d = closing := by
  rcases h.cases with ⟨rfl, rfl⟩ | ⟨rfl, rfl⟩
  · rcases hd.cases with ⟨-, rfl⟩ | ⟨hne, -⟩
    · rfl
    · cases hne
  · rcases hd.cases with ⟨hne, -⟩ | ⟨-, rfl⟩
    · cases hne
    · rfl

/-- Where a bracket is open and everything is closed in the end, there is a text in brackets.  `inner` are
the brackets that are open inside it.  The text in brackets can be cut by itself, and what follows it
closes. -/
theorem exists_inside (hbrackets : Brackets opening closing) {cs inner : List Char}
    {quote : Option Char} {escaped : Bool}
    (h : Place.Closes ⟨inner ++ [opening], quote, escaped⟩ cs) :
    ∃ inside rest, cs = inside ++ closing :: rest ∧
      Inside opening closing (inner.count opening) quote
        ((if escaped then ['\\'] else []) ++ inside) ∧
      Place.Cuts ⟨inner, quote, escaped⟩ inside ∧ start.Closes rest := by
  induction cs generalizing inner quote escaped with
  | nil =>
      obtain ⟨after, halong⟩ := h
      simp [Place.along] at halong
  | cons c cs ih =>
      obtain ⟨t, hstep, ht⟩ := h.exists_step
      generalize hopeners : inner ++ [opening] = openers at hstep
      cases hstep with
      | escaped =>
          rw [← hopeners] at ht
          obtain ⟨inside, rest, rfl, hinside, hcuts, hrest⟩ := ih ht
          exact ⟨c :: inside, rest, rfl, .escaped c hinside, (Step.escaped c).cuts hcuts, hrest⟩
      | backslash =>
          rw [← hopeners] at ht
          obtain ⟨inside, rest, rfl, hinside, hcuts, hrest⟩ := ih ht
          exact ⟨'\\' :: inside, rest, rfl, hinside, Step.backslash.cuts hcuts, hrest⟩
      | quoted hc =>
          rw [← hopeners] at ht
          obtain ⟨inside, rest, rfl, hinside, hcuts, hrest⟩ := ih ht
          exact ⟨c :: inside, rest, rfl, .quoted hc hinside, (Step.quoted hc).cuts hcuts, hrest⟩
      | quote hc =>
          rw [← hopeners] at ht
          obtain ⟨inside, rest, rfl, hinside, hcuts, hrest⟩ := ih ht
          exact ⟨c :: inside, rest, rfl, .quote hc hinside, (Step.quote hc).cuts hcuts, hrest⟩
      | opening hc =>
          rw [← hopeners, ← List.cons_append] at ht
          obtain ⟨inside, rest, rfl, hinside, hcuts, hrest⟩ := ih ht
          refine ⟨c :: inside, rest, rfl, ?_, (Step.opening hc).cuts hcuts, hrest⟩
          by_cases hsame : c = opening
          · rw [hsame, List.count_cons_self] at hinside
            rw [hsame]
            exact .opening hinside
          · rw [List.count_cons_of_ne hsame] at hinside
            exact .other (hbrackets.of_ne hc hsame).1 hinside
      | @closing openers opener _ hc =>
          cases inner with
          | nil =>
              obtain ⟨rfl, rfl⟩ := List.cons.inj hopeners
              obtain rfl := hbrackets.closing_unique hc
              exact ⟨[], cs, rfl, .nil, ⟨[[]], rfl⟩, ht⟩
          | cons b inner =>
              obtain ⟨rfl, rfl⟩ := List.cons.inj hopeners
              obtain ⟨inside, rest, rfl, hinside, hcuts, hrest⟩ := ih ht
              refine ⟨c :: inside, rest, rfl, ?_, (Step.closing hc).cuts hcuts, hrest⟩
              by_cases hsame : b = opening
              · subst hsame
                rw [hbrackets.closing_unique hc, List.count_cons_self]
                exact .closing hinside
              · rw [List.count_cons_of_ne hsame]
                exact .other (hbrackets.of_ne hc hsame).2 hinside
      | other hc =>
          rw [← hopeners] at ht
          obtain ⟨inside, rest, rfl, hinside, hcuts, hrest⟩ := ih ht
          refine ⟨c :: inside, rest, rfl, .other ?_ hinside, ?_, hrest⟩
          · rcases hbrackets.cases with ⟨rfl, rfl⟩ | ⟨rfl, rfl⟩
            · simp_all
            · simp_all
          · by_cases hcomma : c = ',' ∧ inner = []
            · obtain ⟨rfl, rfl⟩ := hcomma
              exact Place.cuts_comma hcuts
            · exact (Step.other hc fun hc hnil => hcomma ⟨hc, hnil⟩).cuts hcuts

/-- What an open bracket of a branch leads to: the reader finds the bracket that closes it. -/
theorem untilClose_of_closes (hbrackets : Brackets opening closing) {cs : List Char}
    (h : start.Closes (opening :: cs)) :
    ∃ inside rest, cs = inside ++ closing :: rest ∧
      untilClose opening closing 0 none cs = .ok inside ∧ start.Cuts inside ∧ start.Closes rest := by
  have hopen : start.along [opening] = some ⟨[opening], none, false⟩ := by
    rw [Place.along, start, (Step.opening hbrackets).next_eq]
    rfl
  have hcs : Place.Closes ⟨[] ++ [opening], none, false⟩ cs :=
    Place.Closes.of_append (a := [opening]) h hopen
  obtain ⟨inside, rest, rfl, hinside, hcuts, hrest⟩ := exists_inside hbrackets hcs
  exact ⟨inside, rest, rfl, hinside.untilClose_eq hbrackets rest, hcuts, hrest⟩

end Inside

/-! ## Spaces -/

/-- Spaces change neither the brackets nor the quote. -/
theorem Place.frame_of_along {s t : Place} {b : List Char} (hb : Spaces b)
    (hquote : ∀ q, s.quote = some q → isSpace q = false) (h : s.along b = some t) :
    t.openers = s.openers ∧ t.quote = s.quote := by
  induction b generalizing s with
  | nil =>
      cases h
      exact ⟨rfl, rfl⟩
  | cons c b ih =>
      obtain ⟨hc, hb⟩ := List.forall_mem_cons.1 hb
      obtain ⟨u, hstep, hu⟩ := exists_step h
      have hsame : u.openers = s.openers ∧ u.quote = s.quote := by
        cases hstep with
        | escaped | backslash | other => exact ⟨rfl, rfl⟩
        | @quoted _ q =>
            have hne : c ≠ q := by
              rintro rfl
              rw [hquote c rfl] at hc
              cases hc
            exact ⟨rfl, if_neg (by simpa using hne)⟩
        | quote hmark =>
            rw [Bool.or_eq_true, beq_iff_eq, beq_iff_eq] at hmark
            rcases hmark with rfl | rfl
            · cases hc
            · cases hc
        | opening hbrackets | closing hbrackets =>
            rcases hbrackets.cases with ⟨rfl, rfl⟩ | ⟨rfl, rfl⟩
            · cases hc
            · cases hc
      have hrest := ih hb (by rwa [hsame.2]) hu
      exact ⟨hrest.1.trans hsame.1, hrest.2.trans hsame.2⟩

/-- An open quote is no space. -/
theorem Place.quote_of_along {s t : Place} {cs : List Char}
    (hs : ∀ q, s.quote = some q → isSpace q = false) (h : s.along cs = some t) :
    ∀ q, t.quote = some q → isSpace q = false := by
  induction cs generalizing s with
  | nil =>
      cases h
      exact hs
  | cons c cs ih =>
      obtain ⟨u, hstep, hu⟩ := exists_step h
      refine ih ?_ hu
      cases hstep with
      | escaped | backslash => exact hs
      | quoted =>
          intro q hq
          exact hs q (Option.ite_none_left_eq_some.1 hq).2
      | quote hmark =>
          rintro q ⟨⟩
          rw [Bool.or_eq_true, beq_iff_eq, beq_iff_eq] at hmark
          rcases hmark with rfl | rfl
          · rfl
          · rfl
      | opening | closing | other => exact fun q hq => absurd hq (by simp)

/-- A piece of a list closes when it is trimmed. -/
theorem Place.closes_trim {piece : List Char} (h : start.along piece = some start) :
    start.Closes (trim piece) := by
  obtain ⟨before, after, hpiece, hbefore, hafter, -⟩ := Text.exists_trim piece
  rw [hpiece, along_append, along_append, along_spaces rfl hbefore] at h
  dsimp only [Option.bind_some] at h
  rw [Option.bind_eq_some_iff] at h
  obtain ⟨s, hs, hstart⟩ := h
  have hquote := quote_of_along (s := start) (fun q hq => absurd hq (by simp [start])) hs
  obtain ⟨hopeners, hnone⟩ := frame_of_along hafter hquote hstart
  obtain ⟨openers, quote, escaped⟩ := s
  cases hopeners
  cases hnone
  exact ⟨escaped, hs⟩

/-! ## Faults of the reader -/

/-- Is it a fault in the brackets and quotes of a list? -/
def Error.isUnbalanced : Error → Bool
  | .strayClose _ => true
  | .unclosed _ => true
  | .unterminatedString => true
  | .emptyBranch => false
  | .danglingEscape => false
  | .missingName _ => false
  | .danglingCombinator => false
  | .unexpected _ => false

/-- A result, or an error that is no fault in brackets and quotes. -/
def IsBalanced {α : Type} (x : Except Error α) : Prop := ∀ e, x = .error e → e.isUnbalanced = false

section Results

variable {α β : Type}

theorem isBalanced_ok (a : α) : IsBalanced (.ok a : Except Error α) := by
  intro e he
  cases he

theorem isBalanced_error {e : Error} (h : e.isUnbalanced = false) :
    IsBalanced (.error e : Except Error α) := by
  intro f hf
  cases hf
  exact h

theorem IsBalanced.bind {x : Except Error α} {f : α → Except Error β} (hx : IsBalanced x)
    (hf : ∀ a, x = .ok a → IsBalanced (f a)) : IsBalanced (x >>= f) := by
  cases x with
  | error e => exact isBalanced_error (hx e rfl)
  | ok a => exact hf a rfl

theorem IsBalanced.mapM {f : α → Except Error β} {l : List α} (h : ∀ a ∈ l, IsBalanced (f a)) :
    IsBalanced (l.mapM f) := by
  induction l with
  | nil => exact isBalanced_ok []
  | cons a l ih =>
      obtain ⟨ha, hl⟩ := List.forall_mem_cons.1 h
      rw [List.mapM_cons]
      refine ha.bind fun b _ => (ih hl).bind fun bs _ => isBalanced_ok (b :: bs)

end Results

theorem isBalanced_nameFrom (skip : Nat) (cs : List Char) : IsBalanced (nameFrom skip cs) := by
  induction cs generalizing skip with
  | nil => exact isBalanced_ok ([], 0)
  | cons c cs ih =>
      cases skip with
      | succ skip => exact (ih skip).bind fun _ _ => isBalanced_ok _
      | zero =>
          rw [nameFrom]
          split
          · split
            · exact isBalanced_error rfl
            · exact (ih _).bind fun _ _ => isBalanced_ok _
          · split
            · exact (ih 0).bind fun _ _ => isBalanced_ok _
            · exact isBalanced_ok _

theorem isBalanced_nameAfter (mark : Char) (cs : List Char) : IsBalanced (nameAfter mark cs) := by
  refine (isBalanced_nameFrom 0 cs).bind ?_
  rintro ⟨name, n⟩ -
  dsimp only
  split
  · exact isBalanced_error rfl
  · exact isBalanced_ok _

/-! ## Parts -/

/-- A part is read, and the text behind it closes, or there is an error that is no fault in brackets and
quotes. -/
def LeavesClosed (cs : List Char) (x : Except Error (Part × Nat)) : Prop :=
  IsBalanced x ∧ ∀ part n, x = .ok (part, n) → Place.start.Closes (cs.drop n)

theorem leavesClosed_ok {cs : List Char} {part : Part} {n : Nat}
    (h : Place.start.Closes (cs.drop n)) : LeavesClosed cs (.ok (part, n)) := by
  refine ⟨isBalanced_ok _, ?_⟩
  rintro _ _ ⟨⟩
  exact h

theorem leavesClosed_error {cs : List Char} {e : Error} (h : e.isUnbalanced = false) :
    LeavesClosed cs (.error e) := by
  refine ⟨isBalanced_error h, ?_⟩
  rintro _ _ ⟨⟩

theorem LeavesClosed.bind {α : Type} {cs : List Char} {x : Except Error α}
    {f : α → Except Error (Part × Nat)} (hx : IsBalanced x)
    (hf : ∀ a, x = .ok a → LeavesClosed cs (f a)) : LeavesClosed cs (x >>= f) := by
  cases x with
  | error e => exact leavesClosed_error (hx e rfl)
  | ok a => exact hf a rfl

theorem leavesClosed_tag (nested : ListReader) {c : Char} {cs : List Char}
    (hc : startsTag c = true) (h : Place.start.Closes (c :: cs)) :
    LeavesClosed cs (readPart nested c cs) := by
  refine ⟨?_, ?_⟩
  · rw [readPart_tag hc]
    exact (isBalanced_nameFrom 0 (c :: cs)).bind fun _ _ => isBalanced_ok _
  · intro part n hread
    obtain ⟨text, rest, name, rfl, rfl, hat, -⟩ := exists_of_readPart_tag hc hread
    rw [List.drop_left]
    exact h.of_append hat.along

section Readers

open Place (start)

variable {nested : ListReader}
  (hnested : ∀ argument, start.Cuts argument → IsBalanced (nested argument))

include hnested

theorem isBalanced_argumentPart (name : String) {argument : List Char} (h : start.Cuts argument) :
    IsBalanced (argumentPart nested name argument) := by
  rw [argumentPart]
  split
  · exact isBalanced_ok _
  split
  · exact isBalanced_ok _
  · exact (hnested argument h).bind fun _ _ => isBalanced_ok _

theorem leavesClosed_readArgument (name : String) (front : List Char) {rest : List Char}
    (h : start.Closes rest) :
    LeavesClosed (front ++ rest) (readArgument nested name front.length rest) := by
  cases hopen : headIs (· == '(') rest with
  | false =>
      rw [readArgument_of_head hopen]
      exact leavesClosed_ok (by rwa [List.drop_left])
  | true =>
      cases rest with
      | nil => cases hopen
      | cons c cs =>
          obtain rfl : c = '(' := beq_iff_eq.1 hopen
          obtain ⟨argument, rest, rfl, hargument, hcuts, hrest⟩ :=
            untilClose_of_closes brackets_round h
          rw [readArgument, hargument]
          refine LeavesClosed.bind (isBalanced_ok argument) ?_
          rintro _ ⟨⟩
          refine LeavesClosed.bind (isBalanced_argumentPart hnested name hcuts) fun part _ => ?_
          refine leavesClosed_ok ?_
          rw [Nat.add_assoc, List.drop_length_add_append, List.drop_succ_cons,
            List.drop_length_add_append]
          exact hrest

theorem leavesClosed_readPseudo {cs : List Char} (h : start.Closes cs) :
    LeavesClosed cs (readPseudo nested cs) := by
  obtain ⟨marks, after, rfl, hmarks, hlength⟩ := exists_marks cs
  cases hname : nameAfter ':' after with
  | error e =>
      rw [readPseudo, hlength, List.drop_left, hname]
      exact leavesClosed_error (isBalanced_nameAfter ':' after e hname)
  | ok found =>
      obtain ⟨text, rest, rfl, -, -, hne, hat⟩ := nameAt_of_nameAfter hname
      have hfront : start.along (marks ++ text) = some start := by
        rcases hmarks with rfl | rfl
        · exact hat.along
        · exact hat.along
      rw [← List.append_assoc] at h
      rw [readPseudo_eq hmarks hat hne, ← List.append_assoc]
      exact leavesClosed_readArgument hnested _ _ (h.of_append hfront)

theorem leavesClosed_readPart {c : Char} {cs : List Char} (h : start.Closes (c :: cs)) :
    LeavesClosed cs (readPart nested c cs) := by
  have hnamed : ∀ {mark : Char} {f : List Char × Nat → Except Error (Part × Nat)},
      start.Closes cs → (∀ name n, ∃ part, f (name, n) = .ok (part, n)) →
      LeavesClosed cs (nameAfter mark cs >>= f) := by
    intro mark f hcs hf
    refine LeavesClosed.bind (isBalanced_nameAfter mark cs) ?_
    rintro ⟨name, n⟩ hname
    obtain ⟨text, rest, rfl, rfl, -, -, hat⟩ := nameAt_of_nameAfter hname
    obtain ⟨part, hpart⟩ := hf name text.length
    rw [hpart]
    exact leavesClosed_ok (by rw [List.drop_left]; exact hcs.of_append hat.along)
  rw [readPart.eq_def]
  split
  · exact leavesClosed_ok (h.tail (by decide))
  · exact hnamed (h.tail (by decide)) fun _ _ => ⟨_, rfl⟩
  · exact hnamed (h.tail (by decide)) fun _ _ => ⟨_, rfl⟩
  · obtain ⟨text, rest, rfl, htext, -, hrest⟩ :=
      untilClose_of_closes brackets_square h
    rw [htext]
    exact leavesClosed_ok (by rwa [List.drop_length_add_append])
  · exact leavesClosed_readPseudo hnested (h.tail (by decide))
  · exact leavesClosed_ok (h.tail (by decide))
  · exact leavesClosed_ok (h.tail (by decide))
  · obtain ⟨escaped, halong⟩ := h
    cases halong
  · obtain ⟨escaped, halong⟩ := h
    cases halong
  · split
    · next htag =>
        have hread := leavesClosed_tag nested htag h
        rwa [readPart_tag htag] at hread
    · exact leavesClosed_error rfl

/-- No reader of a branch that closes meets a fault in brackets and quotes. -/
theorem isBalanced_readParts (last : Last) (spaced : Bool) {skip : Nat} {cs : List Char}
    (h : start.Closes (cs.drop skip)) : IsBalanced (readParts nested last spaced skip cs) := by
  induction cs generalizing last spaced skip with
  | nil =>
      rw [readParts_drop, List.drop_nil]
      cases last with
      | none | combinator => exact isBalanced_error rfl
      | simple => exact isBalanced_ok []
  | cons c cs ih =>
      cases skip with
      | succ skip => exact ih last spaced h
      | zero =>
          rw [List.drop_zero] at h
          rw [readParts]
          split
          · next hspace => exact ih last true (h.tail (Text.not_mem_of_class rfl hspace))
          split
          · next kind hkind =>
              have hcs := h.tail (Text.not_mem_of_class (p := fun d => (combinator? d).isSome) rfl
                (by simp [hkind]))
              have hrest : IsBalanced (readParts nested .combinator false 0 cs) := ih _ _ hcs
              exact hrest.bind fun _ _ => isBalanced_ok _
          · obtain ⟨hpart, hrest⟩ := leavesClosed_readPart hnested h
            refine hpart.bind ?_
            rintro ⟨part, n⟩ hread
            refine (ih .simple false (hrest part n hread)).bind fun parts _ => ?_
            split
            · exact isBalanced_ok _
            · exact isBalanced_ok _

theorem isBalanced_branch {cs : List Char} {pieces : List (List Char)}
    (h : splitBranches cs = .ok pieces) {piece : List Char} (hpiece : piece ∈ pieces) :
    IsBalanced (readParts nested .none false 0 (trim piece)) := by
  have hcloses := Place.closes_trim (along_of_splitBranches h hpiece).1
  exact isBalanced_readParts hnested .none false hcloses

theorem isBalanced_readListWith {cs : List Char} (h : start.Cuts cs) :
    IsBalanced (readListWith nested cs) := by
  obtain ⟨pieces, hpieces⟩ := h
  have hcut : splitBranches cs = .ok pieces := hpieces
  rw [readListWith, hcut]
  refine (isBalanced_ok pieces).bind ?_
  rintro _ ⟨⟩
  refine IsBalanced.mapM fun piece hpiece => ?_
  exact (isBalanced_branch hnested hcut hpiece).bind fun _ _ => isBalanced_ok _

end Readers

theorem isBalanced_readListWithin (n : Nat) {cs : List Char} (h : Place.start.Cuts cs) :
    IsBalanced (readListWithin n cs) := by
  induction n generalizing cs with
  | zero => exact isBalanced_readListWith (fun _ _ => isBalanced_ok []) h
  | succ n ih => exact isBalanced_readListWith (fun _ => ih) h

/-- Of a list that has been cut into branches, neither the list as a whole nor any branch by itself is
refused for its brackets and quotes. -/
theorem readList_balanced {selector : String} {pieces : List (List Char)}
    (h : splitBranches selector.toList = .ok pieces) :
    IsBalanced (readList selector) ∧
      ∀ piece ∈ pieces, IsBalanced (readBranch (.ofList (trim piece))) := by
  refine ⟨isBalanced_readListWithin _ ⟨pieces, h⟩, fun piece hpiece => ?_⟩
  rw [readBranch, String.toList_ofList]
  exact isBalanced_branch (fun _ => isBalanced_readListWithin _) h hpiece

/-- A list with a quoted bracket, one that is escaped and one that a code point stands for.  What is wrong
with it is the combinator at its end. -/
theorem readList_balanced_dangling :
    splitBranches ":is([a=')'],.\\(\\29 ) , b >".toList =
        .ok [":is([a=')'],.\\(\\29 ) ".toList, " b >".toList] ∧
      readList ":is([a=')'],.\\(\\29 ) , b >" = .error .danglingCombinator ∧
      Error.danglingCombinator.isUnbalanced = false := by
  have hcut : splitBranches ":is([a=')'],.\\(\\29 ) , b >".toList =
      .ok [":is([a=')'],.\\(\\29 ) ".toList, " b >".toList] := rfl
  have hread : readList ":is([a=')'],.\\(\\29 ) , b >" = .error .danglingCombinator := by cbv
  exact ⟨hcut, hread, (readList_balanced hcut).1 _ hread⟩

end Stylesheet.Selector
