import Mathlib.Data.List.Basic
import Stylesheet.Proofs.Trimming
import Stylesheet.Selector.Reader

/-!
# Commas, quotes and brackets

Three things run along the text of a selector list.

* Cutting it at its commas goes along with the open brackets, the open quote and a pending backslash
  (`Place`), by steps of a few kinds (`Place.Step`).  Every piece that is cut off leads from the start
  back to the start, and a text that does so is cut off as one piece whatever follows
  (`Place.split_append`).
* The quote and the backslash alone are all that matters where spaces are concerned (`Quoting`).
* What is read up to a closing bracket is a text in which quotes and brackets of the same kind are closed
  again (`Inside`).
-/

namespace Stylesheet.Selector

open Stylesheet.Text (consFirst isSpace Spaces)

/-- A result that is made of another one comes from a result. -/
theorem exists_of_bind_pure {α β : Type} {x : Except Error α} {f : α → β} {b : β}
    (h : (do return f (← x)) = Except.ok b) : ∃ a, x = .ok a ∧ b = f a := by
  cases x with
  | error e => cases h
  | ok a =>
      cases h
      exact ⟨a, rfl, rfl⟩

/-! ## Marks -/

/-- The brackets whose text is read up to the closing one. -/
def Brackets (opening closing : Char) : Prop := (opening, closing) ∈ [('(', ')'), ('[', ']')]

theorem Brackets.cases {opening closing : Char} (h : Brackets opening closing) :
    (opening = '(' ∧ closing = ')') ∨ (opening = '[' ∧ closing = ']') := by
  simpa [Brackets] using h

theorem brackets_round : Brackets '(' ')' := by simp [Brackets]

theorem brackets_square : Brackets '[' ']' := by simp [Brackets]

theorem ne_of_quote {c : Char} (h : (c == '"' || c == '\'') = true) : c ≠ '\\' := by
  rintro rfl
  cases h

/-- The characters that cutting stops at outside quotes. -/
def cuttingMarks : List Char := ['\\', '"', '\'', '(', '[', ')', ']', ',']

/-! ## Cutting at commas -/

/-- Where the cutting of a list is. -/
structure Place where
  /-- The brackets that are open, innermost first. -/
  openers : List Char
  /-- The quote that is open, if any. -/
  quote : Option Char
  /-- Did a backslash come just before? -/
  escaped : Bool

namespace Place

/-- The place at the start of a branch. -/
def start : Place := ⟨[], none, false⟩

/-- The place after one more character of the same branch.  There is none after a bracket that
closes nothing and after the comma that ends the branch. -/
def next (s : Place) (c : Char) : Option Place :=
  if s.escaped then some ⟨s.openers, s.quote, false⟩
  else if c == '\\' then some ⟨s.openers, s.quote, true⟩
  else
    match s.quote with
    | some q => some ⟨s.openers, if c == q then none else some q, false⟩
    | none =>
        if c == '"' || c == '\'' then some ⟨s.openers, some c, false⟩
        else if c == '(' || c == '[' then some ⟨c :: s.openers, none, false⟩
        else if c == ')' || c == ']' then
          match s.openers with
          | opener :: outer =>
              if opener == (if c == ')' then '(' else '[') then some ⟨outer, none, false⟩ else none
          | [] => none
        else if c == ',' && s.openers.isEmpty then none
        else some ⟨s.openers, none, false⟩

/-- The place after a text of the same branch. -/
def along (s : Place) : List Char → Option Place
  | [] => some s
  | c :: cs => (s.next c).bind fun t => along t cs

/-- The branches that are cut off from some place on. -/
def split (s : Place) (cs : List Char) : Except Error (List (List Char)) :=
  splitFrom s.openers s.quote s.escaped cs

theorem along_append (s : Place) (a b : List Char) :
    s.along (a ++ b) = (s.along a).bind fun t => t.along b := by
  induction a generalizing s with
  | nil => rfl
  | cons c a ih =>
      rw [List.cons_append, along, along]
      cases s.next c with
      | none => rfl
      | some t => exact ih t

/-- What a character does to a place, if its branch goes on behind it. -/
inductive Step : Place → Char → Place → Prop where
  /-- Any character after a backslash. -/
  | escaped {openers : List Char} {quote : Option Char} (c : Char) :
      Step ⟨openers, quote, true⟩ c ⟨openers, quote, false⟩
  /-- A backslash, in quotes or not. -/
  | backslash {openers : List Char} {quote : Option Char} :
      Step ⟨openers, quote, false⟩ '\\' ⟨openers, quote, true⟩
  /-- A character in quotes. -/
  | quoted {openers : List Char} {q c : Char} : c ≠ '\\' →
      Step ⟨openers, some q, false⟩ c ⟨openers, if c == q then none else some q, false⟩
  /-- A quote opens. -/
  | quote {openers : List Char} {c : Char} : (c == '"' || c == '\'') = true →
      Step ⟨openers, none, false⟩ c ⟨openers, some c, false⟩
  /-- A bracket opens. -/
  | opening {openers : List Char} {opening closing : Char} : Brackets opening closing →
      Step ⟨openers, none, false⟩ opening ⟨opening :: openers, none, false⟩
  /-- A bracket closes the one that was opened last. -/
  | closing {openers : List Char} {opening closing : Char} : Brackets opening closing →
      Step ⟨opening :: openers, none, false⟩ closing ⟨openers, none, false⟩
  /-- Any other character; a comma in brackets only. -/
  | other {openers : List Char} {c : Char} : c ∉ ['\\', '"', '\'', '(', '[', ')', ']'] →
      (c = ',' → openers ≠ []) → Step ⟨openers, none, false⟩ c ⟨openers, none, false⟩

theorem Step.next_eq {s t : Place} {c : Char} (h : Step s c t) : s.next c = some t := by
  cases h with
  | escaped | backslash => rfl
  | quoted hc => simp [next, hc]
  | quote hquote => simp [next, ne_of_quote hquote, hquote]
  | opening hbrackets | closing hbrackets =>
      rcases hbrackets.cases with ⟨rfl, rfl⟩ | ⟨rfl, rfl⟩
      · rfl
      · rfl
  | other hc hcomma =>
      simp only [List.mem_cons, List.not_mem_nil, or_false, not_or] at hc
      by_cases h : c = ','
      · simp [next, h, hcomma h]
      · simp [next, hc, h]

theorem step_of_next {s t : Place} {c : Char} (h : s.next c = some t) : Step s c t := by
  obtain ⟨openers, quote, escaped⟩ := s
  rw [next] at h
  dsimp only at h
  cases escaped with
  | true =>
      cases h
      exact .escaped c
  | false =>
      rw [if_neg Bool.false_ne_true] at h
      split at h
      · next hback =>
          cases h
          rw [beq_iff_eq.1 hback]
          exact .backslash
      next hback =>
      have hne : c ≠ '\\' := by simpa using hback
      cases quote with
      | some q =>
          cases h
          exact .quoted hne
      | none =>
          dsimp only at h
          split at h
          · next hquote =>
              cases h
              exact .quote hquote
          next hquote =>
          split at h
          · next hopen =>
              cases h
              rw [Bool.or_eq_true, beq_iff_eq, beq_iff_eq] at hopen
              rcases hopen with rfl | rfl
              · exact .opening brackets_round
              · exact .opening brackets_square
          next hopen =>
          split at h
          · next hclose =>
              cases openers with
              | nil => cases h
              | cons opener outer =>
                  obtain ⟨hmatch, ht⟩ := Option.ite_none_right_eq_some.1 h
                  cases ht
                  rw [beq_iff_eq] at hmatch
                  rw [Bool.or_eq_true, beq_iff_eq, beq_iff_eq] at hclose
                  refine .closing ?_
                  rcases hclose with rfl | rfl
                  · rw [hmatch]
                    exact brackets_round
                  · rw [hmatch]
                    exact brackets_square
          next hclose =>
          obtain ⟨hcomma, ht⟩ := Option.ite_none_left_eq_some.1 h
          cases ht
          simp only [Bool.or_eq_true, beq_iff_eq, not_or] at hquote hopen hclose
          refine .other (by simp [hne, hquote, hopen, hclose]) fun hc hnil => hcomma ?_
          rw [hc, hnil]
          rfl

/-- A character that is no mark changes nothing outside quotes. -/
theorem next_of_not_mem {openers : List Char} {c : Char} (h : c ∉ cuttingMarks) :
    next ⟨openers, none, false⟩ c = some ⟨openers, none, false⟩ := by
  simp only [cuttingMarks, List.mem_cons, List.not_mem_nil, or_false, not_or] at h
  refine (Step.other ?_ ?_).next_eq
  · simp [h]
  · exact fun hcomma => absurd hcomma h.2.2.2.2.2.2.2

theorem next_start {c : Char} (h : c ∉ cuttingMarks) : start.next c = some start :=
  next_of_not_mem h

/-- A text without marks changes nothing outside quotes. -/
theorem along_of_unmarked {openers cs : List Char} (h : ∀ c ∈ cs, c ∉ cuttingMarks) :
    along ⟨openers, none, false⟩ cs = some ⟨openers, none, false⟩ := by
  induction cs with
  | nil => rfl
  | cons c cs ih =>
      obtain ⟨hc, hcs⟩ := List.forall_mem_cons.1 h
      rw [along, next_of_not_mem hc]
      exact ih hcs

theorem along_start {cs : List Char} (h : ∀ c ∈ cs, c ∉ cuttingMarks) :
    start.along cs = some start :=
  along_of_unmarked h

/-- A character of the same branch is put in front of its rest. -/
theorem Step.split_eq {s t : Place} {c : Char} (h : Step s c t) (cs : List Char) :
    s.split (c :: cs) = consFirst c <$> t.split cs := by
  rw [split, splitFrom.eq_def]
  cases h with
  | escaped | backslash => rfl
  | quoted hc =>
      simp only [beq_eq_false_iff_ne.2 hc, Bool.false_eq_true, if_false]
      rfl
  | quote hquote =>
      simp only [beq_eq_false_iff_ne.2 (ne_of_quote hquote), hquote, Bool.false_eq_true, if_false, if_true]
      rfl
  | opening hbrackets | closing hbrackets =>
      rcases hbrackets.cases with ⟨rfl, rfl⟩ | ⟨rfl, rfl⟩
      · rfl
      · rfl
  | other hc hcomma =>
      simp only [List.mem_cons, List.not_mem_nil, or_false, not_or] at hc
      by_cases h : c = ','
      · simp [h, hcomma h, split]
      · simp [hc, h, split]

theorem split_of_next {s t : Place} {c : Char} (h : s.next c = some t) (cs : List Char) :
    s.split (c :: cs) = consFirst c <$> t.split cs :=
  (step_of_next h).split_eq cs

/-- Where the branch does not go on, it ends with a comma, or there is an error. -/
theorem split_of_next_eq_none {s : Place} {c : Char} (h : s.next c = none) {cs : List Char}
    {pieces : List (List Char)} (hs : s.split (c :: cs) = .ok pieces) :
    s = start ∧ c = ',' ∧ ∃ rest, pieces = [] :: rest ∧ start.split cs = .ok rest := by
  obtain ⟨openers, quote, escaped⟩ := s
  rw [next] at h
  rw [split, splitFrom.eq_def] at hs
  dsimp only at h hs
  cases escaped with
  | true => cases h
  | false =>
      simp only [Bool.false_eq_true, if_false] at h hs
      split at h
      · cases h
      cases quote with
      | some q => cases h
      | none =>
          dsimp only at h hs
          split at h
          · cases h
          split at h
          · cases h
          split at h
          · next hc =>
              cases openers with
              | nil => simp_all
              | cons opener outer =>
                  dsimp only at h hs
                  split at h <;> simp_all
          split at h
          · next hcomma =>
              rw [Bool.and_eq_true, List.isEmpty_iff] at hcomma
              obtain ⟨rfl, rfl⟩ : c = ',' ∧ openers = [] := ⟨by simpa using hcomma.1, hcomma.2⟩
              cases hrest : splitFrom [] none false cs with
              | error e => simp_all
              | ok rest =>
                  rw [hrest] at hs
                  cases hs
                  exact ⟨rfl, rfl, rest, rfl, hrest⟩
          · cases h

/-- Every piece that is cut off leads back to the start. -/
theorem along_of_split {s : Place} {cs : List Char} {pieces : List (List Char)}
    (h : s.split cs = .ok pieces) :
    ∃ piece rest, pieces = piece :: rest ∧ s.along piece = some start ∧
      piece.length ≤ cs.length ∧
      ∀ p ∈ rest, start.along p = some start ∧ p.length ≤ cs.length := by
  induction cs generalizing s pieces with
  | nil =>
      obtain ⟨openers, quote, escaped⟩ := s
      rw [split, splitFrom.eq_def] at h
      cases escaped with
      | true => cases h
      | false =>
          cases quote with
          | some q => cases h
          | none =>
              cases openers with
              | cons opener outer => cases h
              | nil =>
                  cases h
                  exact ⟨[], [], rfl, rfl, Nat.le_refl 0, fun p hp => absurd hp (by simp)⟩
  | cons c cs ih =>
      cases hnext : s.next c with
      | none =>
          obtain ⟨hstart, -, rest, rfl, hrest⟩ := split_of_next_eq_none hnext h
          obtain ⟨piece, others, rfl, halong, hlength, hothers⟩ := ih hrest
          refine ⟨[], _, rfl, by rw [hstart]; rfl, Nat.zero_le _, ?_⟩
          intro p hp
          rcases List.mem_cons.1 hp with rfl | hp
          · exact ⟨halong, Nat.le_succ_of_le hlength⟩
          · exact ⟨(hothers p hp).1, Nat.le_succ_of_le (hothers p hp).2⟩
      | some t =>
          rw [split_of_next hnext] at h
          obtain ⟨found, ht, rfl⟩ := exists_of_bind_pure h
          obtain ⟨piece, rest, rfl, halong, hlength, hrest⟩ := ih ht
          refine ⟨c :: piece, rest, rfl, ?_, Nat.succ_le_succ hlength, ?_⟩
          · rw [along, hnext]
            exact halong
          · intro p hp
            exact ⟨(hrest p hp).1, Nat.le_succ_of_le (hrest p hp).2⟩

/-- A list is one branch, or a branch, a comma and another list. -/
theorem split_cases {s : Place} {cs : List Char} {pieces : List (List Char)}
    (h : s.split cs = .ok pieces) :
    (pieces = [cs] ∧ s.along cs = some start) ∨
    ∃ piece rest others, cs = piece ++ ',' :: rest ∧ pieces = piece :: others ∧
      s.along piece = some start ∧ start.split rest = .ok others := by
  induction cs generalizing s pieces with
  | nil =>
      obtain ⟨piece, rest, rfl, halong, hlength, -⟩ := along_of_split h
      obtain rfl : piece = [] := List.length_eq_zero_iff.1 (Nat.le_zero.1 hlength)
      obtain ⟨openers, quote, escaped⟩ := s
      cases halong
      cases h
      exact .inl ⟨rfl, rfl⟩
  | cons c cs ih =>
      cases hnext : s.next c with
      | none =>
          obtain ⟨hstart, hcomma, rest, rfl, hrest⟩ := split_of_next_eq_none hnext h
          exact .inr ⟨[], cs, rest, by rw [hcomma]; rfl, rfl, by rw [hstart]; rfl, hrest⟩
      | some t =>
          rw [split_of_next hnext] at h
          obtain ⟨found, ht, rfl⟩ := exists_of_bind_pure h
          rcases ih ht with ⟨rfl, halong⟩ | ⟨piece, rest, others, rfl, rfl, halong, hrest⟩
          · refine .inl ⟨rfl, ?_⟩
            rw [along, hnext]
            exact halong
          · refine .inr ⟨c :: piece, rest, others, rfl, rfl, ?_, hrest⟩
            rw [along, hnext]
            exact halong

/-- A text that leads somewhere does so by a step and the rest of it. -/
theorem exists_step {s u : Place} {c : Char} {cs : List Char} (h : s.along (c :: cs) = some u) :
    ∃ t, Step s c t ∧ t.along cs = some u := by
  obtain ⟨t, hnext, ht⟩ := Option.bind_eq_some_iff.1 h
  exact ⟨t, step_of_next hnext, ht⟩

/-- A text that leads back to the start is one branch at the end of the list. -/
theorem split_last {s : Place} {piece : List Char} (h : s.along piece = some start) :
    s.split piece = .ok [piece] := by
  induction piece generalizing s with
  | nil =>
      cases h
      rfl
  | cons c cs ih =>
      obtain ⟨t, hstep, ht⟩ := exists_step h
      rw [hstep.split_eq, ih ht]
      rfl

/-- A text that leads back to the start is one branch before a comma. -/
theorem split_append {s : Place} {piece : List Char} (h : s.along piece = some start)
    (cs : List Char) : s.split (piece ++ ',' :: cs) = List.cons piece <$> start.split cs := by
  induction piece generalizing s with
  | nil =>
      cases h
      rfl
  | cons c piece ih =>
      obtain ⟨t, hstep, ht⟩ := exists_step h
      rw [List.cons_append, hstep.split_eq, ih ht]
      cases start.split cs <;> rfl

end Place

/-! ## Quotes and backslashes -/

/-- Is a quote open, and did a backslash come just before? -/
abbrev Quoting := Option Char × Bool

/-- The quote and the backslash after one more character. -/
def quotingAfter : Quoting → Char → Quoting
  | (quote, true), _ => (quote, false)
  | (quote, false), c =>
      if c == '\\' then (quote, true)
      else
        match quote with
        | some q => (if c == q then none else some q, false)
        | none => (if c == '"' || c == '\'' then some c else none, false)

/-- The quote and the backslash after a text. -/
def quoting (q : Quoting) (cs : List Char) : Quoting := cs.foldl quotingAfter q

/-- Nothing quoted, nothing escaped. -/
def unquoted : Quoting := (none, false)

theorem quoting_append (q : Quoting) (a b : List Char) :
    quoting q (a ++ b) = quoting (quoting q a) b := List.foldl_append

/-- A character that is neither a quote nor a backslash. -/
def Plain (c : Char) : Prop := c ∉ ['\\', '"', '\'']

/-- A class without quotes and backslashes holds plain characters only. -/
theorem plain_of_class {p : Char → Bool} (hp : ['\\', '"', '\''].all (fun d => !p d) = true)
    {c : Char} (h : p c = true) : Plain c :=
  Text.not_mem_of_class hp h

/-- A plain character changes nothing outside quotes. -/
theorem quotingAfter_plain {c : Char} (h : Plain c) : quotingAfter unquoted c = unquoted := by
  simp only [Plain, List.mem_cons, List.not_mem_nil, or_false, not_or] at h
  simp [quotingAfter, unquoted, h]

theorem quoting_plain {cs : List Char} (h : ∀ c ∈ cs, Plain c) :
    quoting unquoted cs = unquoted := by
  induction cs with
  | nil => rfl
  | cons c cs ih =>
      rw [quoting, List.foldl_cons, quotingAfter_plain (h c List.mem_cons_self)]
      exact ih fun d hd => h d (List.mem_cons_of_mem c hd)

theorem quotingAfter_quote {c : Char} (h : (c == '"' || c == '\'') = true) :
    quotingAfter (none, false) c = (some c, false) := by
  have hback : (c == '\\') = false := beq_eq_false_iff_ne.2 (ne_of_quote h)
  rw [quotingAfter.eq_def]
  dsimp only
  rw [hback, h]
  rfl

theorem quotingAfter_quoted {q c : Char} (h : c ≠ '\\') :
    quotingAfter (some q, false) c = (if c == q then none else some q, false) := by
  rw [quotingAfter.eq_def]
  dsimp only
  rw [beq_eq_false_iff_ne.2 h]
  rfl

theorem Place.Step.quotingAfter_eq {s t : Place} {c : Char} (h : Step s c t) :
    quotingAfter (s.quote, s.escaped) c = (t.quote, t.escaped) := by
  cases h with
  | escaped | backslash => rfl
  | quoted hc => exact quotingAfter_quoted hc
  | quote hquote => exact quotingAfter_quote hquote
  | opening hbrackets | closing hbrackets =>
      refine quotingAfter_plain ?_
      rcases hbrackets.cases with ⟨rfl, rfl⟩ | ⟨rfl, rfl⟩
      · simp [Plain]
      · simp [Plain]
  | other hc => exact quotingAfter_plain fun hmem => hc (List.mem_append_left ['(', '[', ')', ']'] hmem)

/-- Cutting keeps track of the quote and the backslash, whatever the brackets are. -/
theorem Place.quoting_of_along {s t : Place} {cs : List Char} (h : s.along cs = some t) :
    quoting (s.quote, s.escaped) cs = (t.quote, t.escaped) := by
  induction cs generalizing s with
  | nil =>
      cases h
      rfl
  | cons c cs ih =>
      obtain ⟨u, hstep, hu⟩ := exists_step h
      rw [quoting, List.foldl_cons, hstep.quotingAfter_eq]
      exact ih hu

/-- Spaces outside quotes move no place without a pending backslash. -/
theorem Place.along_spaces {s : Place} (hs : (s.quote, s.escaped) = unquoted) {b : List Char}
    (hb : Spaces b) : s.along b = some s := by
  obtain ⟨openers, quote, escaped⟩ := s
  cases hs
  exact along_of_unmarked fun c hc => Text.not_mem_of_class rfl (hb c hc)

/-! ## Brackets -/

/-- Outside quotes, what matters of a character that is no backslash is its own bracket. -/
theorem untilClose_outside {opening closing : Char} {depth : Nat} {c : Char} (hc : c ≠ '\\')
    (cs : List Char) : untilClose opening closing depth none (c :: cs) =
      if c == '"' || c == '\'' then do
        return c :: (← untilClose opening closing depth (some c) cs)
      else if c == opening then do
        return c :: (← untilClose opening closing (depth + 1) none cs)
      else if c == closing then
        match depth with
        | 0 => .ok []
        | depth + 1 => do return c :: (← untilClose opening closing depth none cs)
      else do return c :: (← untilClose opening closing depth none cs) := by
  cases depth with
  | zero => exact untilClose.eq_5 _ _ _ _ (fun h => absurd h hc) (fun _ _ h => absurd h hc)
  | succ depth =>
      exact untilClose.eq_6 _ _ _ _ _ (fun h => absurd h hc) (fun _ _ h => absurd h hc)

/-- A text in brackets, from a place in it on where `depth` pairs of the same bracket are open, and perhaps
a quote. -/
inductive Inside (opening closing : Char) : Nat → Option Char → List Char → Prop where
  /-- The closing bracket comes next. -/
  | nil : Inside opening closing 0 none []
  /-- A character after a backslash. -/
  | escaped {depth : Nat} {quote : Option Char} {cs : List Char} (d : Char) :
      Inside opening closing depth quote cs → Inside opening closing depth quote ('\\' :: d :: cs)
  /-- A character in quotes. -/
  | quoted {depth : Nat} {q c : Char} {cs : List Char} : c ≠ '\\' →
      Inside opening closing depth (if c == q then none else some q) cs →
      Inside opening closing depth (some q) (c :: cs)
  /-- A quote opens. -/
  | quote {depth : Nat} {c : Char} {cs : List Char} : (c == '"' || c == '\'') = true →
      Inside opening closing depth (some c) cs → Inside opening closing depth none (c :: cs)
  /-- A bracket opens. -/
  | opening {depth : Nat} {cs : List Char} : Inside opening closing (depth + 1) none cs →
      Inside opening closing depth none (opening :: cs)
  /-- A bracket closes. -/
  | closing {depth : Nat} {cs : List Char} : Inside opening closing depth none cs →
      Inside opening closing (depth + 1) none (closing :: cs)
  /-- Any other character. -/
  | other {depth : Nat} {c : Char} {cs : List Char} : c ∉ ['\\', '"', '\'', opening, closing] →
      Inside opening closing depth none cs → Inside opening closing depth none (c :: cs)

variable {opening closing : Char} {depth : Nat} {quote : Option Char} {cs inside : List Char}

/-- What is read up to a closing bracket is a text in brackets. -/
theorem inside_of_untilClose (h : untilClose opening closing depth quote cs = .ok inside) :
    ∃ rest, cs = inside ++ closing :: rest ∧ Inside opening closing depth quote inside := by
  -- In all cases after the third the character at hand is no backslash.
  have hback : ∀ {c : Char} {cs : List Char}, (c = '\\' → cs = [] → False) →
      (∀ d ds, c = '\\' → cs = d :: ds → False) → c ≠ '\\' := by
    intro c cs hnil hcons hc
    cases cs with
    | nil => exact hnil hc rfl
    | cons d ds => exact hcons d ds hc rfl
  induction depth, quote, cs using untilClose.induct opening closing generalizing inside with
  | case1 depth quote => exact absurd h (by simp [untilClose])
  | case2 depth quote => exact absurd h (by simp [untilClose])
  | case3 depth quote d cs ih =>
      rw [untilClose] at h
      obtain ⟨found, hfound, rfl⟩ := exists_of_bind_pure h
      obtain ⟨rest, rfl, hinside⟩ := ih hfound
      exact ⟨rest, rfl, .escaped d hinside⟩
  | case4 depth c cs hnil hcons q ih =>
      rw [untilClose.eq_4 _ _ _ _ _ _ hnil hcons] at h
      obtain ⟨found, hfound, rfl⟩ := exists_of_bind_pure h
      obtain ⟨rest, rfl, hinside⟩ := ih hfound
      exact ⟨rest, rfl, .quoted (hback hnil hcons) hinside⟩
  | case5 depth c cs hnil hcons hquote ih =>
      rw [untilClose_outside (hback hnil hcons), if_pos hquote] at h
      obtain ⟨found, hfound, rfl⟩ := exists_of_bind_pure h
      obtain ⟨rest, rfl, hinside⟩ := ih hfound
      exact ⟨rest, rfl, .quote hquote hinside⟩
  | case6 depth c cs hnil hcons hquote hopen ih =>
      rw [untilClose_outside (hback hnil hcons), if_neg hquote, if_pos hopen] at h
      obtain ⟨found, hfound, rfl⟩ := exists_of_bind_pure h
      obtain ⟨rest, rfl, hinside⟩ := ih hfound
      rw [beq_iff_eq.1 hopen]
      exact ⟨rest, rfl, .opening hinside⟩
  | case7 c cs hnil hcons hquote hopen hclose =>
      rw [untilClose_outside (hback hnil hcons), if_neg hquote, if_neg hopen, if_pos hclose] at h
      cases h
      rw [beq_iff_eq.1 hclose]
      exact ⟨cs, rfl, .nil⟩
  | case8 c cs hnil hcons hquote hopen hclose depth ih =>
      rw [untilClose_outside (hback hnil hcons), if_neg hquote, if_neg hopen, if_pos hclose] at h
      obtain ⟨found, hfound, rfl⟩ := exists_of_bind_pure h
      obtain ⟨rest, rfl, hinside⟩ := ih hfound
      rw [beq_iff_eq.1 hclose]
      exact ⟨rest, rfl, .closing hinside⟩
  | case9 depth c cs hnil hcons hquote hopen hclose ih =>
      rw [untilClose_outside (hback hnil hcons), if_neg hquote, if_neg hopen, if_neg hclose] at h
      obtain ⟨found, hfound, rfl⟩ := exists_of_bind_pure h
      obtain ⟨rest, rfl, hinside⟩ := ih hfound
      refine ⟨rest, rfl, .other ?_ hinside⟩
      simp only [Bool.or_eq_true, beq_iff_eq, not_or] at hquote hopen hclose
      simp [hback hnil hcons, hquote, hopen, hclose]

/-- A text in brackets is what is read up to the closing one. -/
theorem Inside.untilClose_eq (hbrackets : Brackets opening closing)
    (h : Inside opening closing depth quote inside) (rest : List Char) :
    untilClose opening closing depth quote (inside ++ closing :: rest) = .ok inside := by
  have hplain : ('\\' ≠ opening ∧ '\\' ≠ closing) ∧ (opening == '"' || opening == '\'') = false ∧
      (closing == '"' || closing == '\'') = false ∧ (closing == opening) = false := by
    rcases hbrackets.cases with ⟨rfl, rfl⟩ | ⟨rfl, rfl⟩
    · decide
    · decide
  obtain ⟨⟨hopening, hclosing⟩, hopeningQuote, hclosingQuote, hne⟩ := hplain
  induction h with
  | nil => rw [List.nil_append, untilClose_outside hclosing.symm, hclosingQuote, hne]; simp
  | escaped d _ ih =>
      rw [List.cons_append, List.cons_append, untilClose, ih]
      rfl
  | quoted hc _ ih =>
      rw [List.cons_append, untilClose.eq_4 _ _ _ _ _ _ (fun h => absurd h hc)
        (fun _ _ h => absurd h hc), ih]
      rfl
  | quote hquote _ ih =>
      have hc := Selector.ne_of_quote hquote
      rw [List.cons_append, untilClose_outside hc, if_pos hquote, ih]
      rfl
  | opening _ ih =>
      rw [List.cons_append, untilClose_outside hopening.symm, hopeningQuote]
      simp [ih]
  | closing _ ih =>
      rw [List.cons_append, untilClose_outside hclosing.symm, hclosingQuote, hne]
      simp [ih]
  | other hc _ ih =>
      simp only [List.mem_cons, List.not_mem_nil, or_false, not_or] at hc
      rw [List.cons_append, untilClose_outside hc.1]
      simp [hc, ih]

/-- A text in brackets leaves nothing quoted or escaped. -/
theorem Inside.quoting (h : Inside opening closing depth quote inside)
    (hbrackets : Brackets opening closing) : quoting (quote, false) inside = unquoted := by
  have hkinds : Plain opening ∧ Plain closing := by
    rcases hbrackets.cases with ⟨rfl, rfl⟩ | ⟨rfl, rfl⟩
    · simp [Plain]
    · simp [Plain]
  have hstep : ∀ {q r : Quoting} {c : Char} {cs : List Char}, quotingAfter q c = r →
      Selector.quoting r cs = unquoted → Selector.quoting q (c :: cs) = unquoted := by
    intro q r c cs hq hr
    rw [Selector.quoting, List.foldl_cons, hq]
    exact hr
  induction h with
  | nil => rfl
  | escaped d _ ih => exact ih
  | quoted hc _ ih => exact hstep (quotingAfter_quoted hc) ih
  | quote hc _ ih => exact hstep (quotingAfter_quote hc) ih
  | opening _ ih => exact hstep (quotingAfter_plain hkinds.1) ih
  | closing _ ih => exact hstep (quotingAfter_plain hkinds.2) ih
  | other hc _ ih =>
      refine hstep (quotingAfter_plain fun hmem => hc ?_) ih
      exact List.mem_append_left [opening, closing] hmem

/-- The text in brackets and the bracket that closes it leave nothing quoted or escaped. -/
theorem quoting_of_untilClose (hbrackets : Brackets opening closing)
    (h : untilClose opening closing depth quote cs = .ok inside) :
    Selector.quoting (quote, false) (cs.take (inside.length + 1)) = unquoted ∧
      inside.length < cs.length := by
  obtain ⟨rest, rfl, hinside⟩ := inside_of_untilClose h
  have hplain : Plain closing := by
    rcases hbrackets.cases with ⟨-, rfl⟩ | ⟨-, rfl⟩
    · simp [Plain]
    · simp [Plain]
  have htake : (inside ++ closing :: rest).take (inside.length + 1) = inside ++ [closing] := by
    simp [List.take_append, List.take_of_length_le]
  rw [htake, quoting_append, hinside.quoting hbrackets]
  exact ⟨quotingAfter_plain hplain, by simp⟩

end Stylesheet.Selector
