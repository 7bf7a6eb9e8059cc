import Stylesheet.Proofs.DeclarationText
import Stylesheet.Proofs.RoundTrip
import Stylesheet.Proofs.TokenShape

/-!
# Weight

Reading never makes characters up.  Some characters come and go freely: spaces, semicolons, closing
curly brackets and the marks of comments.  All others have *mass*, and every tree has a *weight*, the
mass of its pretty text (`mass_renderList`).  What is read from component values weighs at most as
much as their text (`weight_readFrom`), and a name weighs less than its at-keyword when an escape was
resolved (`length_nameValue`).

So when a tree is read back from its own pretty text, the text has not one character with mass that
is not part of the tree: nothing was dropped and nothing was decoded.
-/

namespace Stylesheet.Text

/-! ## Counting characters -/

/-- Is a class of characters such that trimming a text and changing its case leave their number
alone? -/
structure Lasting (p : Char → Bool) : Prop where
  /-- No space is in the class. -/
  space : ∀ c, isSpace c = true → p c = false
  /-- The class does not depend on case. -/
  case : ∀ c : Char, p c.toLower = p c

namespace Lasting

variable {p : Char → Bool}

theorem countP_spaces (h : Lasting p) {cs : List Char} (hcs : Spaces cs) : cs.countP p = 0 := by
  rw [List.countP_eq_zero]
  intro c hc
  simp [h.space c (hcs c hc)]

theorem countP_trim (h : Lasting p) (cs : List Char) : (trim cs).countP p = cs.countP p := by
  obtain ⟨a, b, hcs, ha, hb, -⟩ := exists_trim cs
  have hcount := congrArg (List.countP p) hcs
  rw [List.countP_append, List.countP_append, h.countP_spaces ha, h.countP_spaces hb] at hcount
  omega

theorem countP_trimEnd (h : Lasting p) (cs : List Char) : (trimEnd cs).countP p = cs.countP p := by
  have hsplit := congrArg (List.countP p)
    (@List.takeWhile_append_dropWhile Char isSpace cs.reverse)
  rw [List.countP_append, h.countP_spaces (spaces_takeWhile _), List.countP_reverse] at hsplit
  rw [trimEnd, List.countP_reverse]
  omega

theorem countP_lower (h : Lasting p) (cs : List Char) : (lower cs).countP p = cs.countP p := by
  rw [lower, List.countP_map]
  exact List.countP_congr fun c _ => by simp [h.case c]

/-- One character that is neither a space nor a letter makes such a class. -/
theorem of_eq {e : Char} (hspace : isSpace e = false) (halpha : e.isAlpha = false) :
    Lasting (· == e) := by
  refine ⟨?_, ?_⟩
  · intro c hc
    rw [beq_eq_false_iff_ne]
    rintro rfl
    exact absurd hc (by simp [hspace])
  · intro c
    rw [Bool.eq_iff_iff, beq_iff_eq, beq_iff_eq, toLower_eq_iff halpha]

end Lasting

end Stylesheet.Text

namespace Stylesheet.Declaration

open Stylesheet.Text (trim trimEnd lower Lasting)

/-- How many characters of a class an `!important` has. -/
def markCount (p : Char → Bool) (important : Bool) : Nat :=
  if important then "!important".toList.countP p else 0

/-- Splitting off an `!important` loses nothing else. -/
theorem countP_splitImportance {p : Char → Bool} (h : Lasting p) {text value : List Char}
    {important : Bool} (hsplit : splitImportance text = (value, important)) :
    text.countP p = value.countP p + markCount p important := by
  have hunmarked : (trim text, false) = (value, important) →
      text.countP p = value.countP p + markCount p important := by
    intro hvalue
    cases hvalue
    rw [h.countP_trim]
    rfl
  rw [splitImportance] at hsplit
  split at hsplit
  · next before after hlast =>
      split at hsplit
      · next hsame =>
          cases hsplit
          have hword : lower (trim after) = "important".toList := by
            rw [Text.sameIgnoringCase, beq_iff_eq] at hsame
            exact hsame
          have hafter : after.countP p = "important".toList.countP p := by
            rw [← h.countP_trim after, ← h.countP_lower (trim after), hword]
          have hmark : markCount p true = "important".toList.countP p + if p '!' then 1 else 0 := by
            rw [markCount, if_pos rfl]
            exact List.countP_cons
          rw [← h.countP_trim text, Text.splitLast?_eq_some hlast, List.countP_append,
            List.countP_cons, h.countP_trimEnd, hafter, hmark]
      · exact hunmarked hsplit
  · exact hunmarked hsplit

theorem countP_propertyName {p : Char → Bool} (h : Lasting p) (name : List Char) :
    (propertyName name).countP p = name.countP p := by
  rw [propertyName]
  split
  · rfl
  · exact h.countP_lower name

/-- The text that a declaration is read from has the characters of its pretty text. -/
theorem countP_declarationText {p : Char → Bool} (h : Lasting p) {text : List Char} {d : Declaration}
    (hd : ofText? text = some d) :
    (Node.declarationText .pretty d).countP p = text.countP p := by
  obtain ⟨before, after, rfl, -, -, -, hproperty, hvalue⟩ := ofText?_eq_some hd
  obtain ⟨sp, gap, hsp, hgap, htext⟩ := declarationText_eq .pretty d
  have hmark : (if d.important then gap ++ "!important".toList else []).countP p =
      markCount p d.important := by
    rw [markCount]
    split
    · rw [List.countP_append, h.countP_spaces hgap]
      omega
    · rfl
  rw [htext, List.append_nil, List.countP_append, List.countP_cons, List.countP_append,
    List.countP_append, hmark, h.countP_spaces hsp, hproperty, countP_propertyName h, h.countP_trim,
    List.countP_append, List.countP_cons, countP_splitImportance h hvalue]
  omega

end Stylesheet.Declaration

namespace Stylesheet.Text

/-! ## Mass -/

/-- Does a character come and go freely? -/
def isLight (c : Char) : Bool := isSpace c || c == ';' || c == '\x7d' || c == '/' || c == '*'

/-- The number of characters with mass. -/
def mass (cs : List Char) : Nat := cs.countP fun c => !isLight c

theorem isAlphanum_iff {c : Char} : c.isAlphanum = true ↔
    (48 ≤ c.toNat ∧ c.toNat ≤ 57) ∨ (65 ≤ c.toNat ∧ c.toNat ≤ 90) ∨
      (97 ≤ c.toNat ∧ c.toNat ≤ 122) := by
  rw [Char.isAlphanum, Bool.or_eq_true, isAlpha_iff]
  simp only [Char.isDigit, ge_iff_le, Bool.and_eq_true, decide_eq_true_eq, UInt32.le_iff_toNat_le]
  show _ ∨ 48 ≤ c.toNat ∧ c.toNat ≤ 57 ↔ _
  omega

/-- Letters and digits have mass. -/
theorem isLight_of_isAlphanum {c : Char} (h : c.isAlphanum = true) : isLight c = false := by
  have hne : ∀ e : Char, e.isAlphanum = false → (c == e) = false := by
    intro e he
    rw [beq_eq_false_iff_ne]
    rintro rfl
    exact absurd h (by simp [he])
  have hspace : isSpace c = false := by
    rw [isAlphanum_iff] at h
    simp [isSpace]
    omega
  rw [isLight, hspace, hne ';' rfl, hne '\x7d' rfl, hne '/' rfl, hne '*' rfl]
  rfl

theorem lasting_mass : Lasting fun c => !isLight c := by
  refine ⟨?_, ?_⟩
  · intro c hc
    simp [isLight, hc]
  · intro c
    have hletter : ∀ c : Char, c.isAlpha = true → isLight c = false := by
      intro c hc
      exact isLight_of_isAlphanum (by simp [Char.isAlphanum, hc])
    rw [class_toLower hletter]

@[simp] theorem mass_nil : mass [] = 0 := rfl

@[simp] theorem mass_append (a b : List Char) : mass (a ++ b) = mass a + mass b :=
  List.countP_append

theorem mass_cons (c : Char) (cs : List Char) : mass (c :: cs) = mass [c] + mass cs :=
  mass_append [c] cs

theorem mass_spaces {cs : List Char} (h : Spaces cs) : mass cs = 0 := lasting_mass.countP_spaces h

@[simp] theorem mass_trim (cs : List Char) : mass (trim cs) = mass cs := lasting_mass.countP_trim cs

@[simp] theorem mass_lower (cs : List Char) : mass (lower cs) = mass cs :=
  lasting_mass.countP_lower cs

theorem mass_drop_le (n : Nat) (cs : List Char) : mass (cs.drop n) ≤ mass cs :=
  (List.drop_sublist n cs).countP_le

theorem mass_singleton_le (c : Char) : mass [c] ≤ 1 := List.countP_le_length

/-- A text without mass has no character with mass. -/
theorem not_mem_of_mass_eq_zero {cs : List Char} (h : mass cs = 0) {c : Char}
    (hc : isLight c = false) : c ∉ cs := by
  intro hmem
  rw [mass, List.countP_eq_zero] at h
  exact h c hmem (by simp [hc])

end Stylesheet.Text

namespace Stylesheet.Token

open Stylesheet.Text (mass lower isHexDigit)

/-! ## Names -/

theorem isAlphanum_of_isHexDigit {c : Char} (h : isHexDigit c = true) : c.isAlphanum = true := by
  rw [Text.isAlphanum_iff]
  simp only [isHexDigit, Char.isDigit, Char.le_def, UInt32.le_iff_toNat_le, Bool.or_eq_true,
    Bool.and_eq_true, decide_eq_true_eq, ge_iff_le] at h
  change ((48 ≤ c.toNat ∧ c.toNat ≤ 57) ∨ 97 ≤ c.toNat ∧ c.toNat ≤ 102) ∨
    65 ≤ c.toNat ∧ c.toNat ≤ 70 at h
  omega

/-- An escape has the mass of the character that it stands for besides its backslash. -/
theorem mass_escapeValue_le (c : Char) (cs : List Char) :
    mass [escapeValue (c :: cs)] ≤ mass ((c :: cs).take (escapeLength (c :: cs))) := by
  by_cases hhex : isHexDigit c = true
  · have hlight := Text.isLight_of_isAlphanum (isAlphanum_of_isHexDigit hhex)
    have hmass : mass [c] = 1 := by simp [mass, hlight]
    have hone := Text.mass_singleton_le (escapeValue (c :: cs))
    rw [escapeLength, if_pos hhex, Nat.add_assoc, Nat.add_comm 1, List.take_succ_cons,
      Text.mass_cons c, hmass]
    omega
  · rw [escapeValue, escapeLength, if_neg hhex, if_neg hhex, List.take_succ_cons, List.take_zero]
    split
    · next hnul =>
        rw [beq_iff_eq] at hnul
        rw [hnul]
        decide
    · exact Nat.le_refl _

/-- What becomes of a character of a name outside escapes: a null is replaced, and so is a backslash
that has nothing after it. -/
def keptChar (c : Char) : Char := if c == '\\' || c == '\x00' then '\uFFFD' else c

theorem mass_keptChar (c : Char) : mass [keptChar c] = mass [c] := by
  rw [keptChar]
  split
  · next hc =>
      rw [Bool.or_eq_true, beq_iff_eq, beq_iff_eq] at hc
      rcases hc with rfl | rfl
      · decide
      · decide
  · rfl

theorem nameValueFrom_cons {c : Char} (hc : c ≠ '\\') (cs : List Char) :
    nameValueFrom 0 (c :: cs) = keptChar c :: nameValueFrom 0 cs := by
  rw [nameValueFrom, keptChar]
  by_cases hnul : c = '\x00'
  · simp [hnul]
  · simp [hc, hnul]

/-- Resolving escapes makes no characters up. -/
theorem mass_nameValueFrom_le (skip : Nat) (cs : List Char) :
    mass (nameValueFrom skip cs) ≤ mass (cs.drop skip) := by
  induction cs generalizing skip with
  | nil => simp [nameValueFrom]
  | cons c cs ih =>
      cases skip with
      | succ skip =>
          rw [nameValueFrom, List.drop_succ_cons]
          exact ih skip
      | zero =>
          rw [List.drop_zero, Text.mass_cons c]
          by_cases hc : c = '\\'
          · have hle := Nat.le_trans (ih (escapeLength cs)) (Text.mass_drop_le _ cs)
            have hone := Text.mass_singleton_le (escapeValue cs)
            have hmass : mass ['\\'] = 1 := rfl
            rw [nameValueFrom, if_pos (beq_iff_eq.2 hc), Text.mass_cons (escapeValue cs), hc, hmass]
            omega
          · have hle := ih 0
            rw [List.drop_zero] at hle
            rw [nameValueFrom_cons hc, Text.mass_cons (keptChar c), mass_keptChar]
            omega

theorem mass_nameValue_le (cs : List Char) : mass (nameValue cs) ≤ mass cs :=
  mass_nameValueFrom_le 0 cs

/-- The name of an at-rule weighs at most as much as its at-keyword. -/
theorem Shaped.mass_lower_le {t : Token} {name : List Char} (h : t.Shaped)
    (hkind : t.kind = .atKeyword name) : mass ('@' :: lower name) ≤ mass t.text := by
  rw [Shaped, hkind] at h
  obtain ⟨raw, htext, hname⟩ := h
  have hle := mass_nameValue_le raw
  rw [htext, hname, Text.mass_cons '@' (lower _), Text.mass_cons '@' raw, Text.mass_lower]
  omega

/-- A backslash before another character loses mass when it is resolved. -/
theorem mass_nameValue_lt (c : Char) (cs : List Char) :
    mass (nameValue ('\\' :: c :: cs)) < mass ('\\' :: c :: cs) := by
  have hrest := mass_nameValueFrom_le (escapeLength (c :: cs)) (c :: cs)
  have hvalue := mass_escapeValue_le c cs
  have hsplit := Text.mass_append ((c :: cs).take (escapeLength (c :: cs)))
    ((c :: cs).drop (escapeLength (c :: cs)))
  have hmass : mass ['\\'] = 1 := rfl
  rw [List.take_append_drop] at hsplit
  rw [nameValue, nameValueFrom, if_pos (beq_iff_eq.2 rfl), Text.mass_cons (escapeValue (c :: cs)),
    Text.mass_cons '\\', hmass]
  omega

/-- A name that keeps its mass has no escapes. -/
theorem nameValue_eq_map {cs : List Char} (h : mass cs ≤ mass (nameValue cs)) :
    nameValue cs = cs.map keptChar := by
  induction cs with
  | nil => rfl
  | cons c cs ih =>
      by_cases hc : c = '\\'
      · subst hc
        cases cs with
        | nil => rfl
        | cons d ds => exact absurd h (Nat.not_le.2 (mass_nameValue_lt d ds))
      · have hcons : nameValue (c :: cs) = keptChar c :: nameValue cs := nameValueFrom_cons hc cs
        rw [hcons, Text.mass_cons c, Text.mass_cons (keptChar c), mass_keptChar] at h
        rw [hcons, List.map_cons, ih (by omega)]

/-- A name that keeps its mass and reads in lower case like its text is its text. -/
theorem nameValue_eq_self {cs : List Char} (h : mass cs ≤ mass (nameValue cs))
    (hlower : lower (nameValue cs) = cs) : nameValue cs = cs := by
  have hmap := nameValue_eq_map h
  have hkept : ∀ c ∈ cs, keptChar c = c := by
    have hall : ∀ c ∈ cs, (keptChar c).toLower = c := by
      rw [hmap, lower, List.map_map] at hlower
      exact List.map_inj_left.1 (hlower.trans (List.map_id cs).symm)
    intro c hc
    have hfixed := hall c hc
    rw [keptChar] at hfixed ⊢
    split at hfixed
    · next hcase =>
        rw [if_pos hcase]
        exact hfixed
    · next hcase => rw [if_neg hcase]
  rw [hmap]
  exact (List.map_inj_left.2 hkept).trans (List.map_id cs)

end Stylesheet.Token

namespace Stylesheet.Node

open Stylesheet.Text (mass trim lower Spaces)
open Component (Closed CutOff Grouped tokens tokensOf)

/-! ## The weight of a tree -/

mutual

/-- The mass of the pretty text of a node. -/
def weight : Node → Nat
  | .rule selector children => mass selector.toList + 1 + weightOf children
  | .layer name children => mass (atHead "layer" (name.getD "")) + 1 + weightOf children
  | .media condition children => mass (atHead "media" condition) + 1 + weightOf children
  | .atRule name params children => mass (atHead name params) + 1 + weightOf children
  | .declaration d => mass (declarationText .pretty d)
  | .statement name params => mass (atHead name params)
  | .comment text => mass text.toList
termination_by structural node => node

/-- The mass of the pretty text of some nodes. -/
def weightOf : List Node → Nat
  | [] => 0
  | n :: ns => weight n + weightOf ns
termination_by structural nodes => nodes

end

theorem weightOf_append (a b : List Node) : weightOf (a ++ b) = weightOf a + weightOf b := by
  induction a with
  | nil => simp [weightOf]
  | cons n ns ih => simp [weightOf, ih, Nat.add_assoc]

theorem weightOf_singleton (n : Node) : weightOf [n] = weight n := by
  simp [weightOf]

theorem mass_atHead (name params : String) :
    mass (atHead name params) = mass ('@' :: name.toList) + mass params.toList := by
  rw [atHead, List.cons_append, ← List.cons_append, Text.mass_append]
  split
  · next h =>
      rw [String.isEmpty_iff.1 h]
      rfl
  · have hspace : mass [' '] = 0 := rfl
    rw [Text.mass_cons ' ']
    omega

theorem spaces_of_blanks {cs : List Char} (h : ∀ c ∈ cs, Token.isBlank c = true) : Spaces cs := by
  intro c hc
  have hblank := h c hc
  simp only [Token.isBlank, Token.isNewline, Bool.or_eq_true, beq_iff_eq] at hblank
  rcases hblank with (rfl | rfl) | (rfl | rfl) | rfl <;> rfl

theorem mass_blanks {cs : List Char} (h : ∀ c ∈ cs, Token.isBlank c = true) : mass cs = 0 :=
  Text.mass_spaces (spaces_of_blanks h)

/-- A block weighs as much as its head, its opening bracket and its contents. -/
theorem mass_blockText (depth : Nat) (head : List Char) (children : List Node)
    (h : mass (renderList .pretty (depth + 1) children) = weightOf children) :
    mass (blockText .pretty depth head children.isEmpty (renderList .pretty (depth + 1) children)) =
      mass head + 1 + weightOf children := by
  have hinside : mass (insideText .pretty depth children) = weightOf children := by
    rw [insideText]
    split
    · next hnil =>
        rw [List.isEmpty_iff.1 hnil, weightOf]
        rfl
    · have htabs : mass (List.replicate depth '\t') = 0 := by
        refine mass_blanks fun c hc => ?_
        rw [List.eq_of_mem_replicate hc]
        rfl
      have hnewline : mass ['\n'] = 0 := rfl
      rw [Text.mass_append, Text.mass_cons '\n' (renderList _ _ _), h,
        Text.mass_cons '\n' (List.replicate _ _)]
      omega
  have hspace : mass [' '] = 0 := rfl
  have hopen : mass ['\x7b'] = 1 := rfl
  have hclose : mass ['\x7d'] = 0 := rfl
  rw [blockText_eq, headText, gapBeforeBlock, Text.mass_append, Text.mass_append, List.cons_append,
    Text.mass_cons '\x7b', Text.mass_append, hinside]
  omega

mutual

theorem mass_renderAt (depth : Nat) : (n : Node) → mass (renderAt .pretty depth n) = weight n
  | .rule selector children => by
      rw [renderAt, mass_blockText depth _ _ (mass_renderList (depth + 1) children), weight]
  | .layer name children => by
      rw [renderAt, mass_blockText depth _ _ (mass_renderList (depth + 1) children), weight]
  | .media condition children => by
      rw [renderAt, mass_blockText depth _ _ (mass_renderList (depth + 1) children), weight]
  | .atRule name params children => by
      rw [renderAt, mass_blockText depth _ _ (mass_renderList (depth + 1) children), weight]
  | .declaration d => by
      rw [renderAt, weight, Text.mass_append]
      rfl
  | .statement name params => by
      rw [renderAt, weight, Text.mass_append]
      rfl
  | .comment text => by
      rw [renderAt, weight, Text.mass_append, Text.mass_append, Nat.add_comm (mass ['/', '*'])]
      rfl
termination_by structural n => n

/-- The weight of some nodes is the mass of their pretty text at any depth. -/
theorem mass_renderList (depth : Nat) : (ns : List Node) →
    mass (renderList .pretty depth ns) = weightOf ns
  | [] => by
      rw [renderList, weightOf]
      rfl
  | n :: ns => by
      have hindent : mass (indentation .pretty depth) = 0 := mass_blanks (isBlank_indentation _ _)
      have hgap : mass (if ns.isEmpty then [] else separator .pretty n) = 0 := by
        split
        · rfl
        · rw [separator]
          decide
      rw [renderList, Text.mass_append, Text.mass_append, Text.mass_append, mass_renderAt depth n,
        mass_renderList depth ns, weightOf, hindent, hgap]
      omega
termination_by structural ns => ns

end

/-! ## Reading makes nothing up -/

/-- The mass of what has been seen of the current item. -/
def Pending.weight : Pending → Nat
  | .between dropped => mass dropped
  | .atRule name params => mass ('@' :: name.toList) + mass params
  | .item text => mass text

theorem Pending.weight_extend (p : Pending) (text : List Char) :
    (p.extend text).weight = p.weight + mass text := by
  cases p with
  | between dropped => exact Text.mass_append dropped text
  | atRule name params =>
      rw [Pending.extend, Pending.weight, Pending.weight, Text.mass_append]
      omega
  | item seen => exact Text.mass_append seen text

theorem weight_finish (p : Pending) : weightOf p.finish ≤ p.weight := by
  cases p with
  | between dropped =>
      rw [Pending.finish, weightOf]
      exact Nat.zero_le _
  | atRule name params =>
      rw [Pending.finish, weightOf_singleton, weight, mass_atHead, String.toList_ofList,
        Text.mass_trim]
      exact Nat.le_refl _
  | item text =>
      rw [Pending.finish]
      cases hd : Declaration.ofText? text with
      | none =>
          show weightOf [] ≤ _
          rw [weightOf]
          exact Nat.zero_le _
      | some d =>
          show weightOf [.declaration d] ≤ mass text
          rw [weightOf_singleton, weight]
          exact Nat.le_of_eq (Declaration.countP_declarationText Text.lasting_mass hd)

theorem weight_ofAtRule (name : String) (params : List Char) (children : List Node) :
    weight (ofAtRule name params children) =
      mass ('@' :: name.toList) + mass params + 1 + weightOf children := by
  have hhead : mass (atHead name (.ofList (trim params))) =
      mass ('@' :: name.toList) + mass params := by
    rw [mass_atHead, String.toList_ofList, Text.mass_trim]
  rw [ofAtRule.eq_def]
  dsimp only
  split
  · rw [weight, ← hhead]
    split
    · next hempty =>
        rw [String.isEmpty_iff.1 hempty]
        rfl
    · rfl
  · rw [weight, ← hhead]
  · rw [weight, ← hhead]

theorem weight_readToken {t : Token} (ht : t.Shaped) (p : Pending) :
    weightOf (readToken p t).1 + (readToken p t).2.weight ≤ p.weight + mass t.text := by
  rw [readToken.eq_def]
  split
  · simp [weightOf, Pending.weight]
  · simp [weightOf, Pending.weight]
  · next body closed hkind =>
      rw [Token.Shaped, hkind] at ht
      rw [weightOf_singleton, weight, String.toList_ofList, ht.2, Text.mass_append, Text.mass_append,
        Pending.weight, Text.mass_nil]
      omega
  · next name hkind =>
      have hle := ht.mass_lower_le hkind
      dsimp only
      rw [weightOf, Pending.weight, Pending.weight, String.toList_ofList, Text.mass_nil]
      omega
  · exact Nat.le_add_right_of_le (weight_finish _)
  · rw [weightOf, Pending.weight_extend]
    omega

mutual

theorem weight_readStep : (c : Component) → (around : Option Bracket) →
    Closed around c ∨ CutOff c → (∀ t ∈ tokens c, t.Shaped) → (p : Pending) →
    weightOf (readStep p c).1 + (readStep p c).2.weight ≤ p.weight + mass (Component.text c)
  | .token t, _, _, ht, p => by
      rw [readStep, Component.text]
      exact weight_readToken (ht t (by simp [tokens])) p
  | .block bracket opener body closer, around, h, ht, p => by
      have hkind := Component.kind_opener h
      have hgrouped := Component.grouped_body h
      have hbody := weight_readFrom body (some bracket) hgrouped
        (fun t hmem => ht t (by simp [tokens, hmem])) (.between [])
      have hshaped := ht opener (by simp [tokens])
      have hcurly : bracket = .curly → mass opener.text = 1 := by
        rintro rfl
        rw [Token.Shaped, hkind] at hshaped
        rw [hshaped]
        decide
      rw [Component.text, List.append_assoc, Text.mass_append, readStep.eq_def]
      rw [Pending.weight, Text.mass_nil] at hbody
      dsimp only
      split
      · rw [weightOf, Pending.weight, Pending.weight]
        omega
      · rw [weightOf_singleton, weight_ofAtRule, Pending.weight, Pending.weight, Text.mass_nil,
          Text.mass_append, hcurly rfl]
        omega
      · rw [weightOf_singleton, weight, String.toList_ofList, Text.mass_trim, Pending.weight,
          Pending.weight, Text.mass_nil, Text.mass_append, hcurly rfl]
        omega
      · rw [weightOf, Pending.weight_extend, Text.mass_append opener.text]
        omega
termination_by structural c => c

/-- What is read weighs at most as much as the text it is read from. -/
theorem weight_readFrom : (cs : List Component) → (around : Option Bracket) → Grouped around cs →
    (∀ t ∈ tokensOf cs, t.Shaped) → (p : Pending) →
    weightOf (readFrom p cs) ≤ p.weight + mass (Component.textOf cs)
  | [], _, _, _, p => by
      rw [readFrom]
      exact Nat.le_add_right_of_le (weight_finish p)
  | c :: cs, around, h, ht, p => by
      have hstep := weight_readStep c around h.head (fun t hmem => ht t (by simp [hmem])) p
      have hcs : Grouped around cs := Grouped.right (a := [c]) h
      have hrest := weight_readFrom cs around hcs (fun t hmem => ht t (by simp [hmem]))
        (readStep p c).2
      rw [readFrom, weightOf_append, Component.textOf, Text.mass_append]
      omega
termination_by structural cs => cs

end

end Stylesheet.Node
