import Mathlib.Data.List.TakeWhile
import Stylesheet.Proofs.Edge

/-!
# The shape of tokens

`Token.Scanned` lists what can be cut off at the start of a text, one constructor for each test of `scan`
(`scanned_scan`).

A token of a text says by its kind something about its characters.  `Token.Shaped` collects what the
reader of items relies on, and `shaped_tokenize` says that all tokens of a text are shaped.  Kinds of
which nothing is said here (strings, urls, numbers, …) only contribute their text.
-/

namespace Stylesheet.Token

open Stylesheet.Text (headIs occurs)

/-! ## The token at the start of a text -/

/-- The characters that stand alone, with the kinds of their tokens. -/
def standing : List (Char × Kind) :=
  [(';', .semicolon), ('(', .opening .paren), ('[', .opening .square), ('\x7b', .opening .curly),
    (')', .closing .paren), (']', .closing .square), ('\x7d', .closing .curly)]

/-- What is cut off at the start of a text, and what the first characters must be for it. -/
inductive Scanned (c : Char) (cs : List Char) : Kind × Nat → Prop where
  /-- A run of blanks. -/
  | blank : isBlank c = true → Scanned c cs (.blank, 1 + (cs.takeWhile isBlank).length)
  /-- A comment, which may be left open at the end. -/
  | comment {ds : List Char} : c = '/' → cs = '*' :: ds →
      Scanned c cs ((scanComment ds).1, 2 + (scanComment ds).2)
  /-- A string. -/
  | string : (c == '"' || c == '\'') = true →
      Scanned c cs ((stringFrom c 0 cs).1, 1 + (stringFrom c 0 cs).2)
  /-- A number without a sign. -/
  | number : startsNumber (c :: cs) = true → Scanned c cs (.number, numberLength (c :: cs))
  /-- A number with a sign. -/
  | signed : (c == '+' || c == '-') = true → Scanned c cs (.number, 1 + numberLength cs)
  /-- The mark that closes a comment of another language. -/
  | closeMark {rest : List Char} : c :: cs = '-' :: '-' :: '>' :: rest →
      Scanned c cs (.legacyMark, 3)
  /-- The mark that opens one. -/
  | openMark {rest : List Char} : c :: cs = '<' :: '!' :: '-' :: '-' :: rest →
      Scanned c cs (.legacyMark, 4)
  /-- An identifier, a function or a url. -/
  | name : startsName (c :: cs) = true → Scanned c cs (scanIdent (c :: cs))
  /-- An at-keyword. -/
  | atKeyword : c = '@' →
      Scanned c cs (.atKeyword (nameValue (cs.take (nameLength cs))), 1 + nameLength cs)
  /-- A hash. -/
  | hash : c = '#' → Scanned c cs (.hash, 1 + nameLength cs)
  /-- A character that always stands alone. -/
  | mark {kind : Kind} : (c, kind) ∈ standing → Scanned c cs (kind, 1)
  /-- Any other character. -/
  | delim : (∀ row ∈ standing, row.1 ≠ c) → Scanned c cs (.delim, 1)

/-- The tests of `scan` are made in this order, so only what a test says by itself is kept of it. -/
theorem scanned_scan (c : Char) (cs : List Char) : Scanned c cs (scan c cs) := by
  rw [scan.eq_def]
  by_cases hblank : isBlank c = true
  · rw [if_pos hblank]
    exact .blank hblank
  rw [if_neg hblank]
  by_cases hcomment : (c == '/' && headIs (· == '*') cs) = true
  · rw [if_pos hcomment]
    rw [Bool.and_eq_true, beq_iff_eq] at hcomment
    cases cs with
    | nil => exact absurd hcomment.2 (by simp [headIs])
    | cons d ds =>
        obtain rfl : d = '*' := by simpa [headIs] using hcomment.2
        exact .comment hcomment.1 rfl
  rw [if_neg hcomment]
  by_cases hquote : (c == '"' || c == '\'') = true
  · rw [if_pos hquote]
    exact .string hquote
  rw [if_neg hquote]
  by_cases hnumber : startsNumber (c :: cs) = true
  · rw [if_pos hnumber]
    exact .number hnumber
  rw [if_neg hnumber]
  by_cases hsigned : ((c == '+' || c == '-') && startsNumber cs) = true
  · rw [if_pos hsigned]
    rw [Bool.and_eq_true] at hsigned
    exact .signed hsigned.1
  rw [if_neg hsigned]
  by_cases hclose : ['-', '-', '>'].isPrefixOf (c :: cs) = true
  · rw [if_pos hclose]
    obtain ⟨rest, hrest⟩ := List.isPrefixOf_iff_prefix.1 hclose
    exact .closeMark hrest.symm
  rw [if_neg hclose]
  by_cases hopen : ['<', '!', '-', '-'].isPrefixOf (c :: cs) = true
  · rw [if_pos hopen]
    obtain ⟨rest, hrest⟩ := List.isPrefixOf_iff_prefix.1 hopen
    exact .openMark hrest.symm
  rw [if_neg hopen]
  by_cases hname : startsName (c :: cs) = true
  · rw [if_pos hname]
    exact .name hname
  rw [if_neg hname]
  by_cases hat : (c == '@' && startsName cs) = true
  · rw [if_pos hat]
    rw [Bool.and_eq_true, beq_iff_eq] at hat
    exact .atKeyword hat.1
  rw [if_neg hat]
  by_cases hhash : (c == '#' && (startsName cs || headIs (fun d => d.isDigit || d == '-') cs)) = true
  · rw [if_pos hhash]
    rw [Bool.and_eq_true, beq_iff_eq] at hhash
    exact .hash hhash.1
  rw [if_neg hhash]
  split
  case h_8 h₁ h₂ h₃ h₄ h₅ h₆ h₇ =>
    refine .delim ?_
    simp only [standing, List.forall_mem_cons]
    exact ⟨Ne.symm h₁, Ne.symm h₂, Ne.symm h₃, Ne.symm h₄, Ne.symm h₅, Ne.symm h₆, Ne.symm h₇,
      List.forall_mem_nil _⟩
  all_goals exact .mark (by simp [standing])

/-! ## What the kind says -/

/-- What the kind of a token says about its text. -/
def Shaped (t : Token) : Prop :=
  match t.kind with
  | .blank => ∀ c ∈ t.text, isBlank c = true
  | .comment body closed =>
      occurs ['*', '/'] body = false ∧
        t.text = ['/', '*'] ++ body ++ if closed then ['*', '/'] else []
  | .atKeyword name => ∃ raw, t.text = '@' :: raw ∧ name = nameValue raw
  | .semicolon => t.text = [';']
  | .legacyMark => t.text = ['-', '-', '>'] ∨ t.text = ['<', '!', '-', '-']
  | .opening .curly => t.text = ['\x7b']
  | .closing .curly => t.text = ['\x7d']
  | _ => True

/-- A kind that says nothing about the text. -/
def Kind.isPlain : Kind → Bool
  | .string _ => true
  | .badString => true
  | .url _ => true
  | .badUrl => true
  | .ident => true
  | .number => true
  | .hash => true
  | .delim => true
  | .opening b => b != .curly
  | .closing b => b != .curly
  | _ => false

theorem shaped_of_isPlain {t : Token} (h : t.kind.isPlain = true) : t.Shaped := by
  rw [Shaped.eq_def]
  split <;> simp_all [Kind.isPlain]

theorem isPlain_stringFrom (quote : Char) (skip : Nat) (cs : List Char) :
    (stringFrom quote skip cs).1.isPlain = true := by
  induction cs generalizing skip with
  | nil => cases skip <;> rfl
  | cons c cs ih =>
      cases skip with
      | succ skip => exact ih skip
      | zero =>
          rw [stringFrom]
          split
          · rfl
          split
          · rfl
          · exact ih _

theorem isPlain_urlEnd (cs : List Char) : (urlEnd cs).1.isPlain = true := by
  induction cs with
  | nil => rfl
  | cons c cs ih =>
      rw [urlEnd]
      split
      · rfl
      split
      · exact ih
      · rfl

theorem isPlain_urlFrom (skip : Nat) (cs : List Char) : (urlFrom skip cs).1.isPlain = true := by
  induction cs generalizing skip with
  | nil => cases skip <;> rfl
  | cons c cs ih =>
      cases skip with
      | succ skip => exact ih skip
      | zero =>
          rw [urlFrom]
          split
          · rfl
          split
          · exact isPlain_urlEnd cs
          split
          · rfl
          split
          · rfl
          · exact ih _

theorem isPlain_scanIdent (cs : List Char) : (scanIdent cs).1.isPlain = true := by
  rw [scanIdent]
  dsimp only
  split
  · split
    · rw [scanUrl]
      split
      · rfl
      · exact isPlain_urlFrom 0 _
    · rfl
  · rfl

theorem commentBody_eq (cs : List Char) :
    ∃ rest, cs = (commentBody cs).1 ++ if (commentBody cs).2 then '*' :: '/' :: rest else [] := by
  fun_induction commentBody cs with
  | case1 => exact ⟨[], rfl⟩
  | case2 rest => exact ⟨rest, rfl⟩
  | case3 c cs hmark body closed hbody ih =>
      obtain ⟨rest, hrest⟩ := ih
      rw [hbody] at hrest
      exact ⟨rest, by rw [List.cons_append, ← hrest]⟩

/-- The body of a comment ends before the first closing mark. -/
theorem occurs_commentBody (cs : List Char) : occurs ['*', '/'] (commentBody cs).1 = false := by
  fun_induction commentBody cs with
  | case1 => rfl
  | case2 => rfl
  | case3 c cs hmark body closed hbody ih =>
      obtain ⟨rest, hrest⟩ := commentBody_eq cs
      rw [hbody] at ih hrest
      rw [occurs, Bool.or_eq_false_iff]
      refine ⟨?_, ih⟩
      rw [← Bool.not_eq_true]
      intro hstart
      cases body with
      | nil => simp [List.isPrefixOf] at hstart
      | cons d ds =>
          simp only [List.isPrefixOf, Bool.and_true, Bool.and_eq_true, beq_iff_eq] at hstart
          rw [← hstart.2] at hrest
          exact hmark _ hstart.1.symm hrest

/-- A comment is its body between the marks, the second of which may be missing at the end. -/
theorem take_scanComment (cs : List Char) :
    cs.take (scanComment cs).2 =
      (commentBody cs).1 ++ if (commentBody cs).2 then ['*', '/'] else [] := by
  obtain ⟨rest, hrest⟩ := commentBody_eq cs
  rw [scanComment]
  dsimp only
  generalize commentBody cs = found at hrest
  obtain ⟨body, closed⟩ := found
  subst hrest
  cases closed with
  | true =>
      have hbody : body.length ≤ body.length + 2 := by omega
      simp [List.take_append, List.take_of_length_le hbody]
  | false => simp

/-- The first token of a text is shaped. -/
theorem shaped_scan (c : Char) (cs : List Char) :
    Shaped ⟨(scan c cs).1, c :: cs.take ((scan c cs).2 - 1)⟩ := by
  have h := scanned_scan c cs
  generalize scan c cs = found at h
  cases h with
  | blank hc =>
      intro d hd
      dsimp only at hd
      rw [Nat.add_sub_cancel_left, ← List.prefix_iff_eq_take.1 (List.takeWhile_prefix isBlank)] at hd
      rcases List.mem_cons.1 hd with rfl | hd
      · exact hc
      · exact List.mem_takeWhile_imp hd
  | @comment ds hc hcs =>
      subst hc hcs
      have hlength : 2 + (scanComment ds).2 - 1 = (scanComment ds).2 + 1 := by omega
      refine ⟨occurs_commentBody ds, ?_⟩
      show '/' :: ('*' :: ds).take (2 + (scanComment ds).2 - 1) =
        ['/', '*'] ++ (commentBody ds).1 ++ if (commentBody ds).2 then ['*', '/'] else []
      rw [List.append_assoc, ← take_scanComment ds, hlength, List.take_succ_cons]
      rfl
  | string => exact shaped_of_isPlain (isPlain_stringFrom c 0 cs)
  | number | signed | hash | delim => exact shaped_of_isPlain rfl
  | closeMark hcs =>
      cases hcs
      exact .inl rfl
  | openMark hcs =>
      cases hcs
      exact .inr rfl
  | name => exact shaped_of_isPlain (isPlain_scanIdent (c :: cs))
  | atKeyword hc =>
      refine ⟨cs.take (nameLength cs), ?_, rfl⟩
      dsimp only
      rw [Nat.add_sub_cancel_left, hc]
  | mark hmark =>
      simp only [standing, List.mem_cons, Prod.mk.injEq, List.not_mem_nil, or_false] at hmark
      rcases hmark with ⟨rfl, rfl⟩ | ⟨rfl, rfl⟩ | ⟨rfl, rfl⟩ | ⟨rfl, rfl⟩ | ⟨rfl, rfl⟩ | ⟨rfl, rfl⟩ |
        ⟨rfl, rfl⟩
      all_goals first
        | rfl
        | exact shaped_of_isPlain rfl

/-- The tokens of a text are shaped. -/
theorem shaped_tokenize {cs : List Char} {t : Token} (h : t ∈ tokenize cs) : t.Shaped := by
  obtain ⟨c, rest, -, rfl⟩ := exists_scan_of_mem h
  exact shaped_scan c rest

end Stylesheet.Token
