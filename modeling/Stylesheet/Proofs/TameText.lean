import Stylesheet.Proofs.Legible
import Stylesheet.Proofs.TokenShape
import Stylesheet.Proofs.Trimming

/-!
# Texts without surprises

A *tame* text has no quotes, no backslashes, no `@` and no `<`, holds neither `/*` nor `url(`, and
is made of ASCII characters.  Its tokens are as tame: there are no strings, comments, urls or
at-keywords among them, and a token opens or closes a block exactly when the one bracket in its text
says so (`tame_tokenize`).

So the nesting of the component values can be seen in the characters: when the round and square
brackets of a tame text are balanced, the text is a head in front of a semicolon or a `{`
(`isHead_of_tame`), and it still is after an at-keyword (`isHead_atKeyword`).
-/

namespace Stylesheet

open Stylesheet.Text (headIs isSpace lower occurs sameIgnoringCase)

/-! ## Tame texts -/

namespace Text

/-- A character of a tame text. -/
def isTame (c : Char) : Bool :=
  c.isAlphanum || [' ', '-', '_', '.', ',', '#', '%', '&', '+', '>', '~', '*', ':', '=', '/', '(',
    ')', '[', ']', '!', ';', '\x7b'].contains c

/-- A text that is tame. -/
structure Tame (cs : List Char) : Prop where
  /-- Its characters are tame. -/
  chars : ∀ c ∈ cs, isTame c = true
  /-- It starts no comment. -/
  noComment : occurs ['/', '*'] cs = false
  /-- It starts no url. -/
  noUrl : occurs ['u', 'r', 'l', '('] (lower cs) = false

theorem occurs_eq_false_of_cons {word : List Char} {c : Char} {cs : List Char}
    (h : occurs word (c :: cs) = false) :
    word.isPrefixOf (c :: cs) = false ∧ occurs word cs = false := by
  rw [occurs, Bool.or_eq_false_iff] at h
  exact h

theorem Tame.tail {c : Char} {cs : List Char} (h : Tame (c :: cs)) : Tame cs := by
  refine ⟨fun d hd => h.chars d (List.mem_cons_of_mem c hd), ?_, ?_⟩
  · exact (occurs_eq_false_of_cons h.noComment).2
  · exact (occurs_eq_false_of_cons h.noUrl).2

theorem Tame.drop {cs : List Char} (h : Tame cs) (n : Nat) : Tame (cs.drop n) := by
  induction n generalizing cs with
  | zero => exact h
  | succ n ih =>
      cases cs with
      | nil => exact h
      | cons c cs => exact ih h.tail

/-- A tame character is none of those that are not. -/
theorem Tame.head_ne {c : Char} {cs : List Char} (h : Tame (c :: cs)) {d : Char}
    (hd : isTame d = false) : c ≠ d := by
  rintro rfl
  rw [h.chars c List.mem_cons_self] at hd
  cases hd

theorem Tame.not_mem {cs : List Char} (h : Tame cs) {d : Char} (hd : isTame d = false) : d ∉ cs := by
  intro hmem
  rw [h.chars d hmem] at hd
  cases hd

end Text

namespace Token

open Text (isTame)

/-! ## Marks -/

/-- A character that may be a token of its own which opens, closes or ends something. -/
def isMark (c : Char) : Bool := ['(', ')', '[', ']', '\x7b', '\x7d', ';'].contains c

/-- The marks in a text. -/
def marks (cs : List Char) : List Char := cs.filter isMark

/-- The marks that a tame token of some kind has; other kinds are not tame. -/
def Kind.marks? : Kind → Option (List Char)
  | .opening .paren => some ['(']
  | .opening .square => some ['[']
  | .opening .curly => some ['\x7b']
  | .closing .paren => some [')']
  | .closing .square => some [']']
  | .closing .curly => some ['\x7d']
  | .semicolon => some [';']
  | .blank => some []
  | .ident => some []
  | .number => some []
  | .hash => some []
  | .legacyMark => some []
  | .delim => some []
  | .comment _ _ => none
  | .string _ => none
  | .badString => none
  | .url _ => none
  | .badUrl => none
  | .atKeyword _ => none

/-- The marks that end a head belong to one kind each. -/
theorem Kind.eq_of_mem_marks {kind : Kind} {ms : List Char} (h : kind.marks? = some ms) :
    (';' ∈ ms → kind = .semicolon) ∧ ('\x7b' ∈ ms → kind = .opening .curly) := by
  cases kind with
  | opening b => cases b <;> cases h <;> simp
  | closing b => cases b <;> cases h <;> simp
  | _ => cases h <;> simp

/-- A token whose kind can be seen in its marks. -/
structure Tame (t : Token) : Prop where
  /-- The marks are those of its kind. -/
  marks_eq : t.kind.marks? = some (marks t.text)
  /-- A semicolon stands alone. -/
  semicolon_eq : t.kind = .semicolon → t = semicolon
  /-- So does a bracket that opens a `{}` block. -/
  openCurly_eq : t.kind = .opening .curly → t = openCurly
  /-- What starts no item starts with a blank or a hyphen. -/
  starts : t.kind = .blank ∨ t.kind = .legacyMark → headIs (fun c => isBlank c || c == '-') t.text = true

/-- A token without marks is tame. -/
theorem tame_of_unmarked {t : Token} (hkind : t.kind.marks? = some [])
    (htext : ∀ c ∈ t.text, isMark c = false)
    (hstarts : t.kind = .blank ∨ t.kind = .legacyMark →
      headIs (fun c => isBlank c || c == '-') t.text = true) : t.Tame := by
  refine ⟨?_, ?_, ?_, hstarts⟩
  · rw [hkind, marks, List.filter_eq_nil_iff.2 fun c hc => by simp [htext c hc]]
  · intro hk
    rw [hk] at hkind
    cases hkind
  · intro hk
    rw [hk] at hkind
    cases hkind

/-! ## Scanners on tame texts -/

/-- A name without escapes is a run of name characters. -/
theorem nameLength_eq {cs : List Char} (h : '\\' ∉ cs) :
    nameLength cs = (cs.takeWhile isNameChar).length := by
  rw [nameLength]
  induction cs with
  | nil => rfl
  | cons c cs ih =>
      rw [List.mem_cons, not_or] at h
      rw [nameLengthFrom, List.takeWhile_cons]
      split
      · rw [ih h.2, List.length_cons, Nat.add_comm]
      · rw [if_neg (by simp [Ne.symm h.1])]
        rfl

theorem nameValue_eq {cs : List Char} (h : ∀ c ∈ cs, c ≠ '\\' ∧ c ≠ '\x00') : nameValue cs = cs := by
  rw [nameValue]
  induction cs with
  | nil => rfl
  | cons c cs ih =>
      have hc := h c List.mem_cons_self
      rw [nameValueFrom, if_neg (by simp [hc.1]), if_neg (by simp [hc.2]),
        ih fun d hd => h d (List.mem_cons_of_mem c hd)]

/-- A class of characters that a token without marks is made of. -/
def isPlain (c : Char) : Bool := isNameChar c || c == '.' || c == '%' || c == '+'

/-- A class that holds of no mark holds of unmarked characters only. -/
theorem not_isMark_of_class {p : Char → Bool}
    (hp : ['(', ')', '[', ']', '\x7b', '\x7d', ';'].all (fun d => !p d) = true) {c : Char}
    (h : p c = true) : isMark c = false := by
  cases hc : isMark c with
  | false => rfl
  | true =>
      rw [Text.class_eq_false_of_all hp c (by simpa [isMark] using hc)] at h
      cases h

theorem not_isMark_of_isPlain {c : Char} (h : isPlain c = true) : isMark c = false :=
  not_isMark_of_class (by decide) h

/-- Are the first characters of a text plain? -/
def PlainRun (n : Nat) (cs : List Char) : Prop := ∀ c ∈ cs.take n, isPlain c = true

theorem plainRun_zero (cs : List Char) : PlainRun 0 cs := by
  intro c hc
  rw [List.take_zero] at hc
  exact absurd hc List.not_mem_nil

theorem PlainRun.add {m n : Nat} {cs : List Char} (hm : PlainRun m cs)
    (hn : PlainRun n (cs.drop m)) : PlainRun (m + n) cs := by
  intro c hc
  rw [List.take_add, List.mem_append] at hc
  rcases hc with hc | hc
  · exact hm c hc
  · exact hn c hc

theorem PlainRun.cons {n : Nat} {c : Char} {cs : List Char} (hc : isPlain c = true)
    (hn : PlainRun n cs) : PlainRun (1 + n) (c :: cs) := by
  intro d hd
  rw [Nat.add_comm, List.take_succ_cons, List.mem_cons] at hd
  rcases hd with rfl | hd
  · exact hc
  · exact hn d hd

theorem plainRun_takeWhile {p : Char → Bool} (hp : ∀ c, p c = true → isPlain c = true)
    (cs : List Char) : PlainRun (cs.takeWhile p).length cs := by
  intro c hc
  rw [← List.prefix_iff_eq_take.1 (List.takeWhile_prefix p)] at hc
  exact hp c (List.mem_takeWhile_imp hc)

theorem isPlain_of_isNameChar (c : Char) (h : isNameChar c = true) : isPlain c = true := by
  simp [isPlain, h]

theorem isPlain_of_isDigit (c : Char) (h : c.isDigit = true) : isPlain c = true := by
  simp [isPlain, isNameChar, h]

theorem plainRun_digitsLength (cs : List Char) : PlainRun (digitsLength cs) cs :=
  plainRun_takeWhile isPlain_of_isDigit cs

theorem plainRun_fractionLength (cs : List Char) : PlainRun (fractionLength cs) cs := by
  rw [fractionLength.eq_def]
  split
  · split
    · exact .cons rfl (plainRun_digitsLength _)
    · exact plainRun_zero _
  · exact plainRun_zero _

theorem plainRun_exponentLength (cs : List Char) : PlainRun (exponentLength cs) cs := by
  rw [exponentLength.eq_def]
  split
  · next e cs =>
      split
      · next he =>
          have hplain : isPlain e = true := by
            rcases (by simpa using he : e = 'e' ∨ e = 'E') with rfl | rfl
            · rfl
            · rfl
          split
          · next s ds =>
              split
              · exact .cons hplain (plainRun_digitsLength _)
              split
              · next hsign =>
                  have hs : isPlain s = true := by
                    rw [Bool.and_eq_true, Bool.or_eq_true, beq_iff_eq, beq_iff_eq] at hsign
                    rcases hsign.1 with rfl | rfl
                    · rfl
                    · rfl
                  have hrun := PlainRun.cons hplain (.cons hs (plainRun_digitsLength ds))
                  rw [← Nat.add_assoc] at hrun
                  exact hrun
              · exact plainRun_zero _
          · exact plainRun_zero _
      · exact plainRun_zero _
  · exact plainRun_zero _

theorem plainRun_nameLength {cs : List Char} (h : '\\' ∉ cs) : PlainRun (nameLength cs) cs := by
  rw [nameLength_eq h]
  exact plainRun_takeWhile isPlain_of_isNameChar cs

theorem plainRun_unitLength {cs : List Char} (h : '\\' ∉ cs) : PlainRun (unitLength cs) cs := by
  rw [unitLength]
  split
  · next hc =>
      cases cs with
      | nil => exact absurd hc (by simp [headIs])
      | cons c cs =>
          rw [headIs, beq_iff_eq] at hc
          exact .cons (by rw [hc]; rfl) (plainRun_zero cs)
  split
  · exact plainRun_nameLength h
  · exact plainRun_zero cs

theorem plainRun_numberLength {cs : List Char} (h : '\\' ∉ cs) : PlainRun (numberLength cs) cs := by
  have hdrop : ∀ n, '\\' ∉ cs.drop n := fun n hmem => h (List.mem_of_mem_drop hmem)
  rw [numberLength]
  have hfraction := (plainRun_digitsLength cs).add (plainRun_fractionLength _)
  have hexponent := hfraction.add (plainRun_exponentLength _)
  exact hexponent.add (plainRun_unitLength (hdrop _))

/-- An identifier, number or hash of plain characters is tame. -/
theorem tame_of_plainRun {kind : Kind} (hkind : kind ∈ [.ident, .number, .hash]) {n : Nat}
    {c : Char} {cs : List Char} (hc : isMark c = false) (h : PlainRun n cs) :
    Tame ⟨kind, c :: cs.take n⟩ := by
  have hall : ∀ k ∈ [Kind.ident, .number, .hash],
      k.marks? = some [] ∧ ¬(k = .blank ∨ k = .legacyMark) := by decide
  refine tame_of_unmarked (hall kind hkind).1 ?_ fun hk => absurd hk (hall kind hkind).2
  intro d hd
  rcases List.mem_cons.1 hd with rfl | hd
  · exact hc
  · exact not_isMark_of_isPlain (h d hd)

theorem PlainRun.tail {n : Nat} {c : Char} {cs : List Char} (h : PlainRun n (c :: cs)) :
    PlainRun (n - 1) cs := by
  cases n with
  | zero => exact plainRun_zero cs
  | succ n =>
      intro d hd
      exact h d (by rw [List.take_succ_cons]; exact List.mem_cons_of_mem c hd)

theorem marks_append (a b : List Char) : marks (a ++ b) = marks a ++ marks b := List.filter_append ..

theorem marks_of_plainRun {n : Nat} {cs : List Char} (h : PlainRun n cs) : marks (cs.take n) = [] := by
  rw [marks, List.filter_eq_nil_iff]
  intro c hc
  simp [not_isMark_of_isPlain (h c hc)]

/-- An identifier or function in a tame text is tame. -/
theorem tame_scanIdent {c : Char} {cs : List Char} (h : Text.Tame (c :: cs))
    (hc : isMark c = false) :
    Tame ⟨(scanIdent (c :: cs)).1, c :: cs.take ((scanIdent (c :: cs)).2 - 1)⟩ := by
  have hback : '\\' ∉ c :: cs := h.not_mem rfl
  have hrun : PlainRun (nameLength (c :: cs)) (c :: cs) := plainRun_nameLength hback
  rw [scanIdent]
  dsimp only
  generalize nameLength (c :: cs) = n at hrun
  split
  · next rest hrest =>
      have hall : c :: cs = (c :: cs).take n ++ '(' :: rest := by
        rw [← hrest, List.take_append_drop]
      split
      · next hurl =>
          -- A name that reads `url` reads so in its characters.
          have hvalue : nameValue ((c :: cs).take n) = (c :: cs).take n := by
            refine nameValue_eq ?_
            intro d hd
            have hmem : d ∈ c :: cs := List.mem_of_mem_take hd
            refine ⟨?_, ?_⟩
            · rintro rfl
              exact hback hmem
            · rintro rfl
              exact h.not_mem rfl hmem
          rw [hvalue, sameIgnoringCase, beq_iff_eq] at hurl
          have hno := h.noUrl
          rw [hall, Text.lower_append, hurl] at hno
          exact absurd hno (by simp [occurs, lower, List.isPrefixOf])
      · have htext : c :: cs.take (n + 1 - 1) = (c :: cs).take n ++ ['('] := by
          rw [Nat.add_sub_cancel, ← List.take_succ_cons, List.take_add_one, ← List.head?_drop, hrest]
          rfl
        refine ⟨?_, fun hk => absurd hk (by simp), fun hk => absurd hk (by simp),
          fun hk => absurd hk (by simp)⟩
        dsimp only
        rw [htext, marks_append, marks_of_plainRun hrun]
        rfl
  · exact tame_of_plainRun (by simp) hc hrun.tail

theorem exists_standing_of_isMark {c : Char} (h : isMark c = true) : ∃ kind, (c, kind) ∈ standing := by
  have hall : ['(', ')', '[', ']', '\x7b', '\x7d', ';'] ⊆ standing.map Prod.fst := by simp [standing]
  obtain ⟨⟨d, kind⟩, hrow, rfl⟩ := List.mem_map.1 (hall (List.contains_iff_mem.1 h))
  exact ⟨kind, hrow⟩

/-- A character that stands alone is tame. -/
theorem tame_of_mem_standing {c : Char} {kind : Kind} (h : (c, kind) ∈ standing) : Tame ⟨kind, [c]⟩ := by
  have hall : ∀ row ∈ standing, row.2.marks? = some (marks [row.1]) ∧
      (row.2 = .semicolon → row.1 = ';') ∧ (row.2 = .opening .curly → row.1 = '\x7b') ∧
      ¬(row.2 = .blank ∨ row.2 = .legacyMark) := by decide
  obtain ⟨hmarks, hsemicolon, hopen, hstarts⟩ := hall (c, kind) h
  refine ⟨hmarks, fun hk => ?_, fun hk => ?_, fun hk => absurd hk hstarts⟩
  · rw [show kind = .semicolon from hk, show c = ';' from hsemicolon hk, semicolon]
  · rw [show kind = .opening .curly from hk, show c = '\x7b' from hopen hk, openCurly]

/-- The first token of a tame text is tame. -/
theorem tame_scan {c : Char} {cs : List Char} (h : Text.Tame (c :: cs)) :
    Tame ⟨(scan c cs).1, c :: cs.take ((scan c cs).2 - 1)⟩ := by
  have hback : '\\' ∉ c :: cs := h.not_mem rfl
  have hback' : '\\' ∉ cs := fun hmem => hback (List.mem_cons_of_mem c hmem)
  have hscanned := scanned_scan c cs
  generalize scan c cs = found at hscanned
  cases hscanned with
  | blank hc =>
      refine tame_of_unmarked rfl ?_ fun _ => by simp [headIs, hc]
      dsimp only
      rw [Nat.add_sub_cancel_left, ← List.prefix_iff_eq_take.1 (List.takeWhile_prefix isBlank)]
      intro d hd
      rcases List.mem_cons.1 hd with rfl | hd
      · exact not_isMark_of_class (by decide) hc
      · exact not_isMark_of_class (by decide) (List.mem_takeWhile_imp hd)
  | comment hc hcs =>
      have hno := (Text.occurs_eq_false_of_cons h.noComment).1
      rw [hc, hcs] at hno
      exact absurd hno (by simp [List.isPrefixOf])
  | string hc =>
      rw [Bool.or_eq_true, beq_iff_eq, beq_iff_eq] at hc
      rcases hc with hc | hc
      · exact absurd hc (h.head_ne rfl)
      · exact absurd hc (h.head_ne rfl)
  | number hnumber =>
      have hc : (c.isDigit || c == '.') = true := by
        rw [startsNumber.eq_def] at hnumber
        split at hnumber
        · next heq =>
            cases heq
            rfl
        · rw [headIs] at hnumber
          rw [hnumber, Bool.true_or]
      exact tame_of_plainRun (by simp)
        (not_isMark_of_class (p := fun d => d.isDigit || d == '.') (by decide) hc)
        (plainRun_numberLength hback).tail
  | signed hc =>
      dsimp only
      rw [Nat.add_sub_cancel_left]
      exact tame_of_plainRun (by simp)
        (not_isMark_of_class (p := fun d => d == '+' || d == '-') (by decide) hc)
        (plainRun_numberLength hback')
  | closeMark hcs =>
      cases hcs
      show Tame ⟨.legacyMark, ['-', '-', '>']⟩
      exact tame_of_unmarked rfl (by simp [isMark]) fun _ => rfl
  | openMark hcs =>
      cases hcs
      exact absurd rfl (h.head_ne (d := '<') rfl)
  | name hname =>
      have hc : (isNameStart c || c == '-') = true := by
        rw [startsName.eq_def] at hname
        split at hname
        · next heq => cases heq
        · next heq =>
            cases heq
            rfl
        · next heq =>
            cases heq
            exact absurd List.mem_cons_self hback
        · next heq =>
            cases heq
            rw [hname, Bool.true_or]
      exact tame_scanIdent h
        (not_isMark_of_class (p := fun d => isNameStart d || d == '-') (by decide) hc)
  | atKeyword hc => exact absurd hc (h.head_ne rfl)
  | hash hc =>
      dsimp only
      rw [Nat.add_sub_cancel_left]
      exact tame_of_plainRun (by simp) (by rw [hc]; rfl) (plainRun_nameLength hback')
  | mark hmark => exact tame_of_mem_standing hmark
  | delim hc =>
      refine tame_of_unmarked rfl ?_ fun hk => absurd hk (by simp)
      intro d hd
      obtain rfl : d = c := by simpa using hd
      cases hmark : isMark d with
      | false => rfl
      | true =>
          obtain ⟨kind, hkind⟩ := exists_standing_of_isMark hmark
          exact absurd rfl (hc (d, kind) hkind)

/-- The tokens of a tame text are tame. -/
theorem tame_tokenize {cs : List Char} (h : Text.Tame cs) : ∀ t ∈ tokenize cs, t.Tame := by
  intro t ht
  obtain ⟨c, rest, hsuffix, rfl⟩ := exists_scan_of_mem ht
  refine tame_scan ?_
  rw [List.suffix_iff_eq_drop.1 hsuffix]
  exact h.drop _

end Token

namespace Component

open Token (marks isMark)

/-! ## Balanced brackets -/

/-- The brackets that are open after a character, or none if it closes what is not open. -/
def bracketsAfter : (openers : List Bracket) → Char → Option (List Bracket)
  | openers, '(' => some (.paren :: openers)
  | openers, '[' => some (.square :: openers)
  | .paren :: openers, ')' => some openers
  | .square :: openers, ']' => some openers
  | _, ')' => none
  | _, ']' => none
  | openers, _ => some openers

/-- Are the round and square brackets of a text balanced, when some are open already? -/
def balanced (openers : List Bracket) : List Char → Bool
  | [] => openers.isEmpty
  | c :: cs =>
      match bracketsAfter openers c with
      | some openers => balanced openers cs
      | none => false

theorem bracketsAfter_unmarked {c : Char} (h : isMark c = false) (openers : List Bracket) :
    bracketsAfter openers c = some openers := by
  rw [bracketsAfter.eq_def]
  split
  all_goals first
    | rfl
    | cases h

/-- Only the marks of a text count. -/
theorem balanced_append (openers : List Bracket) (a b : List Char) :
    balanced openers (a ++ b) = balanced openers (marks a ++ b) := by
  induction a generalizing openers with
  | nil => rfl
  | cons c a ih =>
      rw [List.cons_append, balanced, marks]
      cases hc : isMark c with
      | false =>
          rw [bracketsAfter_unmarked hc, List.filter_cons_of_neg (by simp [hc])]
          exact ih openers
      | true =>
          rw [List.filter_cons_of_pos hc, List.cons_append, balanced]
          cases bracketsAfter openers c with
          | none => rfl
          | some openers => exact ih openers

/-- A round or square bracket that opens is open in the rest. -/
theorem balanced_opening {b : Bracket} (hb : b ≠ .curly) {ms : List Char}
    (hms : (Token.Kind.opening b).marks? = some ms) (openers : List Bracket) (cs : List Char) :
    balanced openers (ms ++ cs) = balanced (b :: openers) cs := by
  cases b with
  | curly => exact absurd rfl hb
  | paren =>
      cases hms
      rfl
  | square =>
      cases hms
      rfl

/-- A round or square bracket that closes is the last that is open. -/
theorem balanced_closing {b : Bracket} (hb : b ≠ .curly) {ms : List Char}
    (hms : (Token.Kind.closing b).marks? = some ms) {openers : List Bracket} {cs : List Char}
    (h : balanced openers (ms ++ cs) = true) :
    ∃ outer, openers = b :: outer ∧ balanced outer cs = true := by
  cases b with
  | curly => exact absurd rfl hb
  | paren =>
      cases hms
      rw [List.singleton_append, balanced] at h
      cases openers with
      | nil => cases h
      | cons opener outer =>
          cases opener with
          | paren => exact ⟨outer, rfl, h⟩
          | square | curly => cases h
  | square =>
      cases hms
      rw [List.singleton_append, balanced] at h
      cases openers with
      | nil => cases h
      | cons opener outer =>
          cases opener with
          | square => exact ⟨outer, rfl, h⟩
          | paren | curly => cases h

/-- A mark that no head may hold is not the mark of a tame token of a head. -/
theorem marks?_ne_of_plain {t : Token} (ht : t.Tame) {ts : List Token}
    (hplain : ∀ c ∈ Token.textOf (t :: ts), c ∉ [';', '\x7b', '\x7d']) {d : Char}
    (hd : d ∈ [';', '\x7b', '\x7d']) : t.kind.marks? ≠ some [d] := by
  intro hkind
  rw [ht.marks_eq, Option.some.injEq] at hkind
  have hmem : d ∈ marks t.text := by
    rw [hkind]
    exact List.mem_singleton_self d
  refine hplain d ?_ hd
  rw [Token.textOf_cons]
  exact List.mem_append_left _ (List.mem_filter.1 hmem).1

/-- Grouping a balanced tame text ends all the blocks that it starts or finds open, and makes
component values that stay inside a head. -/
theorem groupFrom_tame {nested : Bool} {ts : List Token} (htame : ∀ t ∈ ts, t.Tame)
    (hplain : ∀ c ∈ Token.textOf ts, c ∉ [';', '\x7b', '\x7d']) {current : List Component}
    {frames : List Frame} (hcurrent : ∀ c ∈ current, isInner nested c = true)
    (hframes : ∀ f ∈ frames, f.bracket ≠ .curly ∧ ∀ c ∈ f.before, isInner nested c = true)
    (hbalanced : balanced (frames.map Frame.bracket) (Token.textOf ts) = true) :
    ∃ current', (∀ c ∈ current', isInner nested c = true) ∧
      ∀ us, groupFrom (ts ++ us) current frames = groupFrom us current' [] := by
  induction ts generalizing current frames with
  | nil =>
      have hnil : frames = [] := by simpa [balanced] using hbalanced
      exact ⟨current, hcurrent, fun us => by rw [hnil, List.nil_append]⟩
  | cons t ts ih =>
      have hts : ∀ u ∈ ts, u.Tame := fun u hu => htame u (List.mem_cons_of_mem t hu)
      have hrest : ∀ c ∈ Token.textOf ts, c ∉ [';', '\x7b', '\x7d'] := by
        intro c hc
        exact hplain c (by rw [Token.textOf_cons]; exact List.mem_append_right _ hc)
      have hmarks := (htame t List.mem_cons_self).marks_eq
      have hmark := fun d => @marks?_ne_of_plain t (htame t List.mem_cons_self) ts hplain d
      rw [Token.textOf_cons, balanced_append] at hbalanced
      cases hk : t.kind with
      | opening b =>
          rw [hk] at hmarks hmark
          have hb : b ≠ .curly := by
            rintro rfl
            exact hmark '\x7b' (by simp) rfl
          rw [balanced_opening hb hmarks] at hbalanced
          obtain ⟨current', hcurrent', hgroup⟩ := @ih hts hrest [] (⟨b, t, current⟩ :: frames)
            (fun c hc => absurd hc List.not_mem_nil)
            (List.forall_mem_cons.2 ⟨⟨hb, hcurrent⟩, hframes⟩) hbalanced
          refine ⟨current', hcurrent', fun us => ?_⟩
          rw [List.cons_append, groupFrom]
          simp only [hk]
          exact hgroup us
      | closing b =>
          rw [hk] at hmarks hmark
          have hb : b ≠ .curly := by
            rintro rfl
            exact hmark '\x7d' (by simp) rfl
          obtain ⟨brackets, houter, hclose⟩ := balanced_closing hb hmarks hbalanced
          obtain ⟨f, outer, rfl, hf, rfl⟩ := List.map_eq_cons_iff.1 houter
          obtain ⟨hbefore, houterFrames⟩ := List.forall_mem_cons.1 hframes
          have hblock : isInner nested (.block b f.opener current.reverse (some t)) = true := by
            cases b with
            | curly => exact absurd rfl hb
            | paren | square => rfl
          obtain ⟨current', hcurrent', hgroup⟩ :=
            ih hts hrest (List.forall_mem_cons.2 ⟨hblock, hbefore.2⟩) houterFrames hclose
          refine ⟨current', hcurrent', fun us => ?_⟩
          rw [List.cons_append, groupFrom]
          simp only [hk, hf, if_true]
          exact hgroup us
      | semicolon => exact absurd (by rw [hk]; rfl) (hmark ';' (by simp))
      | comment | string | badString | url | badUrl | atKeyword =>
          rw [hk] at hmarks
          cases hmarks
      | blank | ident | number | hash | legacyMark | delim =>
          rw [hk] at hmarks
          rw [← Option.some.inj hmarks] at hbalanced
          have htoken : isInner nested (.token t) = true := by simp [isInner, hk]
          obtain ⟨current', hcurrent', hgroup⟩ :=
            ih hts hrest (List.forall_mem_cons.2 ⟨htoken, hcurrent⟩) hframes hbalanced
          refine ⟨current', hcurrent', fun us => ?_⟩
          rw [List.cons_append, groupFrom_token (by simp [hk, staysToken]), hgroup]

/-! ## Heads -/

/-- A character that ends a head, as a token and as a component value. -/
structure HeadEnd (e : Char) (t : Token) (stop : Component → Bool) : Prop where
  /-- The character is an edge. -/
  mark : e ∈ [';', '\x7b']
  /-- A tame token that ends with it is the token. -/
  only : ∀ {u : Token}, u.Tame → e ∈ marks u.text → u = t
  /-- The token has this character. -/
  text : t.text = [e]
  /-- After a head the token becomes a component value that ends the head. -/
  ends : ∀ current, ∃ last, groupFrom [t] current [] = current.reverse ++ [last] ∧
    stop last = true ∧ tokens last = [t]

theorem headEnd_semicolon : HeadEnd ';' Token.semicolon isSemicolon := by
  refine ⟨by simp, ?_, rfl, ?_⟩
  · intro u hu hmem
    exact hu.semicolon_eq ((Token.Kind.eq_of_mem_marks hu.marks_eq).1 hmem)
  · intro current
    exact ⟨.token Token.semicolon, by simp [groupFrom, Token.semicolon, closeAll],
      by simp [isSemicolon], by rw [tokens]⟩

theorem headEnd_openCurly : HeadEnd '\x7b' Token.openCurly isOpenCurly := by
  refine ⟨by simp, ?_, rfl, ?_⟩
  · intro u hu hmem
    exact hu.openCurly_eq ((Token.Kind.eq_of_mem_marks hu.marks_eq).2 hmem)
  · intro current
    exact ⟨.block .curly Token.openCurly [] none, by simp [groupFrom, Token.openCurly, closeAll],
      by simp [isOpenCurly], by simp [tokens]⟩

/-- The last token of a tame text before the end of a head is that end. -/
theorem HeadEnd.tokenize {e : Char} {t : Token} {stop : Component → Bool} (h : HeadEnd e t stop)
    {x : List Char} (hx : Text.Tame (x ++ [e])) :
    ∃ ts, Token.tokenize (x ++ [e]) = ts ++ [t] ∧ Token.textOf ts = x ∧ ∀ u ∈ ts, u.Tame := by
  have htame := Token.tame_tokenize hx
  have htext := Token.textOf_tokenize (x ++ [e])
  have hne : ∀ u ∈ Token.tokenize (x ++ [e]), u.text ≠ [] :=
    fun u hu => Token.text_ne_nil_of_mem_tokenizeFrom hu
  generalize Token.tokenize (x ++ [e]) = all at htame htext hne
  rcases List.eq_nil_or_concat all with rfl | ⟨ts, u, rfl⟩
  · exact absurd htext (by simp)
  · rw [List.concat_eq_append] at *
    have hu : u ∈ ts ++ [u] := by simp
    obtain ⟨w, last, hw⟩ := (List.eq_nil_or_concat u.text).resolve_left (hne u hu)
    rw [List.concat_eq_append] at hw
    rw [Token.textOf_append, Token.textOf_cons, Token.textOf_nil, List.append_nil, hw,
      ← List.append_assoc] at htext
    obtain ⟨hts, hlast⟩ := List.append_inj' htext rfl
    have hmark : Token.isMark e = true := by
      rcases (by simpa using h.mark : e = ';' ∨ e = '\x7b') with rfl | rfl
      · rfl
      · rfl
    have hmem : e ∈ marks u.text := by
      rw [hw, hlast, marks, List.mem_filter]
      exact ⟨by simp, hmark⟩
    have hut := h.only (htame u hu) hmem
    have hnil : w = [] := by
      rw [hut, h.text, ← List.nil_append [e], hlast] at hw
      exact (List.append_inj' hw rfl).1.symm
    rw [hnil, List.append_nil] at hts
    exact ⟨ts, by rw [hut], hts, fun v hv => htame v (List.mem_append_left _ hv)⟩

/-- The first component value of a group comes from the first token. -/
theorem head_of_group {t : Token} {ts : List Token} {c : Component} {cs : List Component}
    (h : group (t :: ts) = c :: cs) :
    c = .token t ∨ ∃ b body closer, c = .block b t body closer ∧ t.kind = .opening b := by
  have htokens := tokensOf_group (t :: ts)
  have hgrouped := group_grouped (t :: ts)
  rw [h] at htokens hgrouped
  cases c with
  | token u =>
      rw [tokensOf, tokens, List.singleton_append, List.cons.injEq] at htokens
      exact .inl (by rw [htokens.1])
  | block b opener body closer =>
      rw [tokensOf, tokens, List.cons_append, List.cons_append, List.cons.injEq] at htokens
      rw [Grouped, Closed, CutOff] at hgrouped
      refine .inr ⟨b, body, closer, by rw [htokens.1], ?_⟩
      rw [← htokens.1]
      rcases hgrouped with ⟨hc, -⟩ | ⟨hc, -⟩
      · exact hc.1
      · exact hc.1

/-- Tokens that grouping turns into what stays inside a head, followed by its end. -/
theorem areHead_of_groupFrom {nested : Bool} {start stop : Component → Bool} {e : Char}
    {first end_ : Token} (hend : HeadEnd e end_ stop) {ts : List Token} {current : List Component}
    (hcurrent : ∀ c ∈ current, isInner nested c = true)
    (hgroup : group (first :: ts ++ [end_]) = groupFrom [end_] current [])
    (hstart : ∀ c cs, group (first :: ts ++ [end_]) = c :: cs → start c = true) :
    areHead nested start stop (group (first :: ts ++ [end_])) = true := by
  obtain ⟨last, hlast, hstop, htokens⟩ := hend.ends current
  rw [hlast] at hgroup
  rw [areHead_iff]
  cases hrev : current.reverse with
  | nil =>
      -- Then the end of the head would be all there is.
      have hall := tokensOf_group (first :: ts ++ [end_])
      rw [hgroup, hrev, List.nil_append, tokensOf, htokens] at hall
      have hlength := congrArg List.length hall
      simp at hlength
  | cons c inner =>
      rw [hrev] at hgroup
      refine ⟨c, inner, last, hgroup, hstart c _ hgroup, hstop, ?_⟩
      intro d hd
      rw [← hrev, List.mem_reverse] at hd
      exact hcurrent d hd

/-- A tame text with balanced brackets is the head of a rule or declaration. -/
theorem isHead_of_tame {nested : Bool} {e : Char} {t : Token} {stop : Component → Bool}
    (hend : HeadEnd e t stop) {x : List Char} (hx : Text.Tame (x ++ [e]))
    (hplain : ∀ d ∈ x, d ∉ [';', '\x7b', '\x7d']) (hbalanced : balanced [] x = true)
    (hstart : headIs (fun c => !(Token.isBlank c || c == '-')) x = true) :
    isHead nested startsItem stop (x ++ [e]) = true := by
  obtain ⟨c, x, rfl, hc⟩ : ∃ c y, x = c :: y ∧ (Token.isBlank c || c == '-') = false := by
    cases x with
    | nil => exact absurd hstart (by simp [headIs])
    | cons c y => exact ⟨c, y, rfl, by simpa [headIs] using hstart⟩
  obtain ⟨ts, htokens, htext, htame⟩ := hend.tokenize hx
  obtain ⟨first, rest, rfl⟩ : ∃ first rest, ts = first :: rest := by
    cases ts with
    | nil => exact absurd htext (by simp)
    | cons first rest => exact ⟨first, rest, rfl⟩
  rw [isHead, htokens]
  rw [← htext] at hplain hbalanced
  obtain ⟨current, hcurrent, hgroup⟩ := @groupFrom_tame nested _ htame hplain [] []
    (fun d hd => absurd hd List.not_mem_nil) (fun f hf => absurd hf List.not_mem_nil) hbalanced
  refine areHead_of_groupFrom hend hcurrent (hgroup [t]) ?_
  intro d ds hgrouped
  rcases head_of_group hgrouped with rfl | ⟨b, body, closer, rfl, -⟩
  · have hfirst := htame first List.mem_cons_self
    have hhead : headIs (fun c => Token.isBlank c || c == '-') first.text = false := by
      have hmem : first ∈ Token.tokenize (c :: x ++ [e]) := by rw [htokens]; exact List.mem_cons_self
      have hne : first.text ≠ [] := Token.text_ne_nil_of_mem_tokenizeFrom hmem
      rw [← Text.headIs_append_of_ne_nil hne, ← Token.textOf_cons, htext]
      exact hc
    have hkind : ¬(first.kind = .blank ∨ first.kind = .legacyMark) := by
      intro hk
      rw [hfirst.starts hk] at hhead
      cases hhead
    have hmarks := hfirst.marks_eq
    rw [startsItem]
    cases hk : first.kind <;> simp_all [Token.Kind.marks?]
  · rfl

/-- A name without escapes before something else. -/
theorem tokenize_atKeyword {c : Char} {name rest : List Char} (hc : c.isAlpha = true)
    (hname : ∀ d ∈ c :: name, Token.isNameChar d = true ∧ d ≠ '\\' ∧ d ≠ '\x00')
    (hrest : headIs Token.isNameChar rest = false) (hback : '\\' ∉ rest) :
    Token.tokenize ('@' :: c :: name ++ rest) =
      ⟨.atKeyword (c :: name), '@' :: c :: name⟩ :: Token.tokenize rest := by
  have hstart : Token.startsName (c :: name ++ rest) = true := by
    have hnot : ∀ d : Char, d.isAlpha = false → c ≠ d := by
      rintro d hd rfl
      rw [hc] at hd
      cases hd
    rw [List.cons_append, Token.startsName.eq_def]
    split
    · next heq => exact absurd heq (by simp)
    · next heq => exact absurd (List.cons.inj heq).1 (hnot '-' rfl)
    · next heq => exact absurd (List.cons.inj heq).1 (hnot '\\' rfl)
    · next heq =>
        rw [← (List.cons.inj heq).1, Token.isNameStart, hc]
        rfl
  have hall : '\\' ∉ c :: name ++ rest := by
    intro hmem
    rcases List.mem_append.1 hmem with hmem | hmem
    · exact (hname _ hmem).2.1 rfl
    · exact hback hmem
  have hlength : Token.nameLength (c :: name ++ rest) = (c :: name).length := by
    rw [Token.nameLength_eq hall, List.takeWhile_append_of_pos fun d hd => (hname d hd).1]
    cases rest with
    | nil => simp
    | cons d ds =>
        have hd : Token.isNameChar d = false := hrest
        simp [hd]
  have hvalue : Token.nameValue ((c :: name ++ rest).take (c :: name).length) = c :: name := by
    rw [List.take_left, Token.nameValue_eq fun d hd => (hname d hd).2]
  have hscan : Token.scan '@' (c :: name ++ rest) =
      (.atKeyword (c :: name), 1 + (c :: name).length) := by
    have hself : Token.startsName ('@' :: (c :: name ++ rest)) = false := rfl
    rw [Token.scan.eq_def, hself, hstart, hlength]
    dsimp only
    rw [hvalue]
    rfl
  rw [List.cons_append, Token.tokenize_cons, hscan]
  simp

/-- A tame text with balanced brackets is the rest of a head after its at-keyword. -/
theorem isHead_atKeyword {nested : Bool} {e : Char} {t : Token} {stop : Component → Bool}
    (hend : HeadEnd e t stop) {name : String} {c : Char} {cs x : List Char}
    (hcs : name.toList = c :: cs) (hc : c.isAlpha = true)
    (hname : ∀ d ∈ c :: cs, Token.isNameChar d = true ∧ d ≠ '\\' ∧ d ≠ '\x00')
    (hx : Text.Tame (x ++ [e])) (hrest : headIs Token.isNameChar (x ++ [e]) = false)
    (hplain : ∀ d ∈ x, d ∉ [';', '\x7b', '\x7d']) (hbalanced : balanced [] x = true) :
    isHead nested (isKeyword name) stop ('@' :: name.toList ++ (x ++ [e])) = true := by
  obtain ⟨ts, htokens, htext, htame⟩ := hend.tokenize hx
  have hkeyword : isInner nested (.token ⟨.atKeyword name.toList, '@' :: name.toList⟩) = true := rfl
  rw [isHead, hcs, tokenize_atKeyword hc hname hrest (hx.not_mem rfl), htokens, ← hcs]
  rw [← htext] at hplain hbalanced
  obtain ⟨current, hcurrent, hgroup⟩ := @groupFrom_tame nested _ htame hplain
    [.token ⟨.atKeyword name.toList, '@' :: name.toList⟩] []
    (fun d hd => by rw [List.mem_singleton.1 hd]; exact hkeyword)
    (fun f hf => absurd hf List.not_mem_nil) hbalanced
  refine areHead_of_groupFrom hend hcurrent (hgroup [t]) ?_
  intro d ds hgrouped
  rcases head_of_group hgrouped with rfl | ⟨b, body, closer, -, hk⟩
  · simp [isKeyword]
  · exact absurd hk (by simp)

end Component

end Stylesheet
