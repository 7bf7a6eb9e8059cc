import Stylesheet.Token.Lexer

/-!
# Where tokens end

A semicolon or a curly bracket is an *edge*: no token reaches up to one and looks past it, except a
string, a comment, a url or an escape that is still open there.  So a text can be cut into tokens
up to an edge without knowing what comes behind.

Every scanner of the lexer gets one lemma here.  For the scanners that look at a fixed class of
characters it says that a rest which starts at an edge is as good as no rest.  For the scanners
that may run through an edge it needs that they did not: the length that they give is at most that
of the text before the edge.

`tokenize_append_of_edge` puts them together: if there is a token boundary before an edge, the
tokens before the boundary are the same whatever edge follows.
-/

namespace Stylesheet.Token

open Stylesheet.Text (headIs hexLength isHexDigit)

/-! ## Edges -/

/-- A character at which every token that is not open ends. -/
def isEdge (c : Char) : Bool := c == ';' || c == '\x7b' || c == '\x7d'

/-- A rest of a text that is empty or starts at an edge. -/
inductive EdgeRest : List Char → Prop
  | nil : EdgeRest []
  | cons {c : Char} {cs : List Char} : isEdge c = true → EdgeRest (c :: cs)

theorem isEdge_iff {c : Char} : isEdge c = true ↔ c = ';' ∨ c = '\x7b' ∨ c = '\x7d' := by
  simp [isEdge, or_assoc]

/-- A class of characters without edges does not hold at the start of an edge rest. -/
theorem EdgeRest.headIs_eq_false {rest : List Char} (h : EdgeRest rest) {p : Char → Bool}
    (hp : ∀ c, isEdge c = true → p c = false) : headIs p rest = false := by
  cases h with
  | nil => rfl
  | cons hc => exact hp _ hc

theorem EdgeRest.headIs_append {rest : List Char} (h : EdgeRest rest) {p : Char → Bool}
    (hp : ∀ c, isEdge c = true → p c = false) (cs : List Char) :
    headIs p (cs ++ rest) = headIs p cs := by
  cases cs with
  | nil => exact h.headIs_eq_false hp
  | cons c cs => rfl

theorem EdgeRest.takeWhile_append {rest : List Char} (h : EdgeRest rest) {p : Char → Bool}
    (hp : ∀ c, isEdge c = true → p c = false) (cs : List Char) :
    (cs ++ rest).takeWhile p = cs.takeWhile p := by
  induction cs with
  | nil =>
      cases h with
      | nil => rfl
      | cons hc => simp [hp _ hc]
  | cons c cs ih =>
      rw [List.cons_append, List.takeWhile_cons, List.takeWhile_cons, ih]

theorem EdgeRest.dropWhile_append {rest : List Char} (h : EdgeRest rest) {p : Char → Bool}
    (hp : ∀ c, isEdge c = true → p c = false) (cs : List Char) :
    (cs ++ rest).dropWhile p = cs.dropWhile p ++ rest := by
  induction cs with
  | nil =>
      cases h with
      | nil => rfl
      | cons hc => simp [hp _ hc]
  | cons c cs ih =>
      rw [List.cons_append, List.dropWhile_cons, List.dropWhile_cons, ih]
      split <;> rfl

theorem isBlank_of_isEdge (c : Char) (h : isEdge c = true) : isBlank c = false := by
  rcases isEdge_iff.1 h with rfl | rfl | rfl <;> rfl

theorem isNewline_of_isEdge (c : Char) (h : isEdge c = true) : isNewline c = false := by
  rcases isEdge_iff.1 h with rfl | rfl | rfl <;> rfl

theorem isHexDigit_of_isEdge (c : Char) (h : isEdge c = true) : isHexDigit c = false := by
  rcases isEdge_iff.1 h with rfl | rfl | rfl <;> rfl

theorem isDigit_of_isEdge (c : Char) (h : isEdge c = true) : c.isDigit = false := by
  rcases isEdge_iff.1 h with rfl | rfl | rfl <;> rfl

/-! ## Escapes and names -/

theorem EdgeRest.hexLength_append {rest : List Char} (h : EdgeRest rest) (n : Nat)
    (cs : List Char) : hexLength n (cs ++ rest) = hexLength n cs := by
  induction n generalizing cs with
  | zero => simp [hexLength]
  | succ n ih =>
      cases cs with
      | nil =>
          cases h with
          | nil => rfl
          | cons hc => simp [hexLength, isHexDigit_of_isEdge _ hc]
      | cons c cs => simp [hexLength, ih]

theorem hexLength_le_length (n : Nat) (cs : List Char) : hexLength n cs ≤ cs.length := by
  induction n generalizing cs with
  | zero => simp [hexLength]
  | succ n ih =>
      cases cs with
      | nil => simp [hexLength]
      | cons c cs =>
          have hcs := ih cs
          rw [hexLength]
          split
          · rw [List.length_cons]; omega
          · exact Nat.zero_le _

theorem EdgeRest.blankLength_append {rest : List Char} (h : EdgeRest rest) (cs : List Char) :
    blankLength (cs ++ rest) = blankLength cs := by
  cases cs with
  | nil =>
      cases h with
      | nil => rfl
      | @cons c r hc =>
          rcases isEdge_iff.1 hc with rfl | rfl | rfl <;> simp [blankLength, isBlank, isNewline]
  | cons c cs =>
      cases cs with
      | nil =>
          cases h with
          | nil => rfl
          | @cons e r he =>
              by_cases hc : c = '\r'
              · subst hc
                rcases isEdge_iff.1 he with rfl | rfl | rfl <;> rfl
              · simp [blankLength, hc]
      | cons d ds => by_cases hc : c = '\r' <;> by_cases hd : d = '\n' <;> simp [blankLength, hc, hd]

theorem EdgeRest.escapeLength_append {rest : List Char} (h : EdgeRest rest) {cs : List Char}
    (hcs : cs ≠ []) : escapeLength (cs ++ rest) = escapeLength cs := by
  cases cs with
  | nil => exact absurd rfl hcs
  | cons c cs =>
      have hdigits : 1 + hexLength 5 cs ≤ (c :: cs).length := by
        have := hexLength_le_length 5 cs
        rw [List.length_cons]; omega
      rw [List.cons_append, escapeLength, escapeLength]
      simp only [h.hexLength_append, ← List.cons_append, List.drop_append_of_le_length hdigits,
        h.blankLength_append]

/-- An escape that starts right before an edge takes the edge along. -/
theorem escapeLength_of_isEdge {e : Char} (he : isEdge e = true) (u : List Char) :
    escapeLength (e :: u) = 1 := by
  simp [escapeLength, isHexDigit_of_isEdge e he]

theorem EdgeRest.nameLengthFrom_append {rest : List Char} (h : EdgeRest rest) {e : Char}
    (he : isEdge e = true) {u cs : List Char} {skip : Nat}
    (hfit : nameLengthFrom skip (cs ++ e :: u) ≤ cs.length) :
    nameLengthFrom skip (cs ++ rest) = nameLengthFrom skip cs := by
  induction cs generalizing skip with
  | nil =>
      cases skip with
      | zero =>
          cases h with
          | nil => rfl
          | @cons c r hc =>
              rcases isEdge_iff.1 hc with rfl | rfl | rfl <;> rfl
      | succ skip =>
          rw [List.nil_append, nameLengthFrom, List.length_nil] at hfit
          omega
  | cons c cs ih =>
      rw [List.length_cons] at hfit
      cases skip with
      | succ skip =>
          rw [List.cons_append, nameLengthFrom] at hfit ⊢
          rw [nameLengthFrom, ih (by omega)]
      | zero =>
          rw [List.cons_append, nameLengthFrom] at hfit ⊢
          rw [nameLengthFrom]
          by_cases hn : isNameChar c = true
          · rw [if_pos hn] at hfit ⊢
            rw [if_pos hn, ih (by omega)]
          · rw [if_neg hn] at hfit ⊢
            rw [if_neg hn]
            by_cases hb : c = '\\'
            · subst hb
              cases cs with
              | nil =>
                  -- The backslash stands right before the edge, so the name runs through it.
                  simp +arith [headIs, isNewline_of_isEdge e he, escapeLength_of_isEdge he,
                    nameLengthFrom] at hfit
              | cons d ds =>
                  rw [EdgeRest.headIs_append (.cons he) isNewline_of_isEdge,
                    EdgeRest.escapeLength_append (.cons he) (by simp)] at hfit
                  rw [h.headIs_append isNewline_of_isEdge, h.escapeLength_append (by simp)]
                  split
                  · next hs =>
                      rw [if_pos hs] at hfit
                      rw [ih (by omega)]
                  · rfl
            · simp [hb]

theorem EdgeRest.nameLength_append {rest : List Char} (h : EdgeRest rest) {e : Char}
    (he : isEdge e = true) {u cs : List Char} (hfit : nameLength (cs ++ e :: u) ≤ cs.length) :
    nameLength (cs ++ rest) = nameLength cs :=
  h.nameLengthFrom_append he hfit

theorem EdgeRest.startsName_append {rest : List Char} (h : EdgeRest rest) (cs : List Char) :
    startsName (cs ++ rest) = startsName cs := by
  cases cs with
  | nil =>
      cases h with
      | nil => rfl
      | @cons c r hc => rcases isEdge_iff.1 hc with rfl | rfl | rfl <;> rfl
  | cons c cs =>
      by_cases hm : c = '-'
      · subst hm
        cases cs with
        | nil =>
            cases h with
            | nil => rfl
            | @cons c r hc => rcases isEdge_iff.1 hc with rfl | rfl | rfl <;> rfl
        | cons d ds => rfl
      · by_cases hb : c = '\\'
        · subst hb
          simp [startsName, h.headIs_append isNewline_of_isEdge]
        · simp [startsName, hm]

/-! ## Numbers -/

theorem EdgeRest.digitsLength_append {rest : List Char} (h : EdgeRest rest) (cs : List Char) :
    digitsLength (cs ++ rest) = digitsLength cs := by
  rw [digitsLength, digitsLength, h.takeWhile_append isDigit_of_isEdge]

theorem EdgeRest.startsNumber_append {rest : List Char} (h : EdgeRest rest) (cs : List Char) :
    startsNumber (cs ++ rest) = startsNumber cs := by
  cases cs with
  | nil =>
      cases h with
      | nil => rfl
      | @cons c r hc => rcases isEdge_iff.1 hc with rfl | rfl | rfl <;> rfl
  | cons c cs =>
      by_cases hp : c = '.'
      · subst hp
        simp [startsNumber, h.headIs_append isDigit_of_isEdge]
      · simp [startsNumber, hp, headIs]

theorem EdgeRest.fractionLength_append {rest : List Char} (h : EdgeRest rest) (cs : List Char) :
    fractionLength (cs ++ rest) = fractionLength cs := by
  cases cs with
  | nil =>
      cases h with
      | nil => rfl
      | @cons c r hc => rcases isEdge_iff.1 hc with rfl | rfl | rfl <;> rfl
  | cons c cs =>
      by_cases hp : c = '.'
      · subst hp
        simp [fractionLength, h.headIs_append isDigit_of_isEdge, h.digitsLength_append]
      · simp [fractionLength, hp]

theorem EdgeRest.exponentLength_append {rest : List Char} (h : EdgeRest rest) (cs : List Char) :
    exponentLength (cs ++ rest) = exponentLength cs := by
  cases cs with
  | nil =>
      cases h with
      | nil => rfl
      | @cons c r hc => rcases isEdge_iff.1 hc with rfl | rfl | rfl <;> rfl
  | cons c cs =>
      cases cs with
      | nil =>
          cases h with
          | nil => rfl
          | @cons e r he =>
              rcases isEdge_iff.1 he with rfl | rfl | rfl <;> simp [exponentLength]
      | cons s ds =>
          simp only [List.cons_append, exponentLength, h.headIs_append isDigit_of_isEdge,
            h.digitsLength_append]
          rw [← List.cons_append, h.digitsLength_append]

theorem digitsLength_le_length (cs : List Char) : digitsLength cs ≤ cs.length :=
  (List.takeWhile_sublist _).length_le

theorem fractionLength_le_length (cs : List Char) : fractionLength cs ≤ cs.length := by
  rw [fractionLength.eq_def]
  split
  · next cs =>
      have := digitsLength_le_length cs
      split
      · rw [List.length_cons]; omega
      · exact Nat.zero_le _
  · exact Nat.zero_le _

theorem exponentLength_le_length (cs : List Char) : exponentLength cs ≤ cs.length := by
  rw [exponentLength.eq_def]
  split
  · next e cs =>
      split
      · split
        · next s ds =>
            have h₁ := digitsLength_le_length (s :: ds)
            have h₂ := digitsLength_le_length ds
            simp only [List.length_cons] at h₁ ⊢
            split
            · omega
            · split
              · omega
              · exact Nat.zero_le _
        · exact Nat.zero_le _
      · exact Nat.zero_le _
  · exact Nat.zero_le _

theorem EdgeRest.unitLength_append {rest : List Char} (h : EdgeRest rest) {e : Char}
    (he : isEdge e = true) {u cs : List Char} (hfit : unitLength (cs ++ e :: u) ≤ cs.length) :
    unitLength (cs ++ rest) = unitLength cs := by
  have hpercent : ∀ c, isEdge c = true → (c == '%') = false := by
    intro c hc
    rcases isEdge_iff.1 hc with rfl | rfl | rfl <;> rfl
  rw [unitLength, EdgeRest.headIs_append (.cons he) hpercent,
    EdgeRest.startsName_append (.cons he)] at hfit
  rw [unitLength, unitLength, h.headIs_append hpercent, h.startsName_append]
  split
  · rfl
  · next hp =>
      rw [if_neg hp] at hfit
      split
      · next hs =>
          rw [if_pos hs] at hfit
          exact h.nameLength_append he hfit
      · rfl

theorem EdgeRest.numberLength_append {rest : List Char} (h : EdgeRest rest) {e : Char}
    (he : isEdge e = true) {u cs : List Char} (hfit : numberLength (cs ++ e :: u) ≤ cs.length) :
    numberLength (cs ++ rest) = numberLength cs := by
  have hedge : EdgeRest (e :: u) := .cons he
  have hw : digitsLength cs ≤ cs.length := digitsLength_le_length cs
  have hf : fractionLength (cs.drop (digitsLength cs)) ≤ cs.length - digitsLength cs := by
    simpa using fractionLength_le_length (cs.drop (digitsLength cs))
  -- The number proper ends before the edge in any case; only the unit may run through it.
  generalize hn : digitsLength cs + fractionLength (cs.drop (digitsLength cs)) = n at hf
  have hnl : n ≤ cs.length := by omega
  have hx : exponentLength (cs.drop n) ≤ cs.length - n := by
    simpa using exponentLength_le_length (cs.drop n)
  generalize hm : n + exponentLength (cs.drop n) = m at hx
  have hml : m ≤ cs.length := by omega
  have key : ∀ r, EdgeRest r → numberLength (cs ++ r) = m + unitLength (cs.drop m ++ r) := by
    intro r hr
    rw [numberLength]
    simp only [hr.digitsLength_append, List.drop_append_of_le_length hw, hr.fractionLength_append,
      hn, List.drop_append_of_le_length hnl, hr.exponentLength_append, hm,
      List.drop_append_of_le_length hml]
  have hcs := key [] .nil
  rw [List.append_nil, List.append_nil] at hcs
  rw [key _ hedge] at hfit
  have hu : unitLength (cs.drop m ++ e :: u) ≤ (cs.drop m).length := by
    rw [List.length_drop]
    omega
  rw [key _ h, hcs, h.unitLength_append he hu]

/-! ## Strings, comments and urls -/

theorem EdgeRest.stringFrom_append {rest : List Char} (h : EdgeRest rest) {e quote : Char}
    (he : isEdge e = true) (hq : isEdge quote = false) {u cs : List Char} {skip : Nat}
    (hfit : (stringFrom quote skip (cs ++ e :: u)).2 ≤ cs.length) :
    stringFrom quote skip (cs ++ rest) = stringFrom quote skip cs := by
  induction cs generalizing skip with
  | nil =>
      have hne : (e == quote) = false := by
        rw [beq_eq_false_iff_ne]
        intro heq
        rw [heq, hq] at he
        cases he
      cases skip with
      | zero => simp [stringFrom, hne, isNewline_of_isEdge e he] at hfit
      | succ skip => simp [stringFrom] at hfit
  | cons c cs ih =>
      rw [List.length_cons] at hfit
      cases skip with
      | succ skip =>
          simp only [List.cons_append, stringFrom] at hfit ⊢
          rw [ih (by omega)]
      | zero =>
          simp only [List.cons_append, stringFrom] at hfit ⊢
          by_cases hc : (c == quote) = true
          · simp only [if_pos hc]
          · simp only [if_neg hc] at hfit ⊢
            by_cases hn : isNewline c = true
            · simp only [if_pos hn]
            · simp only [if_neg hn] at hfit ⊢
              by_cases hb : (c == '\\') = true
              · simp only [if_pos hb] at hfit ⊢
                cases cs with
                | nil =>
                    -- The string's backslash stands right before the edge and takes it along.
                    simp [headIs, isNewline_of_isEdge e he, escapeLength_of_isEdge he,
                      stringFrom] at hfit
                | cons d ds =>
                    have hedge : EdgeRest (e :: u) := .cons he
                    rw [hedge.headIs_append isNewline_of_isEdge, hedge.blankLength_append,
                      hedge.escapeLength_append (by simp)] at hfit
                    rw [h.headIs_append isNewline_of_isEdge, h.blankLength_append,
                      h.escapeLength_append (by simp), ih (by omega)]
              · simp only [if_neg hb] at hfit ⊢
                rw [ih (by omega)]

theorem EdgeRest.scanComment_append {rest : List Char} {e : Char} (he : isEdge e = true)
    {u cs : List Char} (hfit : (scanComment (cs ++ e :: u)).2 ≤ cs.length) :
    scanComment (cs ++ rest) = scanComment cs := by
  have key : commentBody (cs ++ rest) = commentBody cs := by
    induction cs with
    | nil =>
        have hne : ¬e = '*' := by
          rcases isEdge_iff.1 he with rfl | rfl | rfl <;> decide
        simp [scanComment, commentBody, hne] at hfit
    | cons c cs ih =>
        cases cs with
        | nil =>
            have hne : ¬e = '*' ∧ ¬e = '/' := by
              rcases isEdge_iff.1 he with rfl | rfl | rfl <;> decide
            simp [scanComment, commentBody, hne] at hfit
            omega
        | cons d ds =>
            by_cases hend : c = '*' ∧ d = '/'
            · rw [hend.1, hend.2]
              rfl
            · have step : ∀ r, commentBody (c :: d :: r) =
                  (c :: (commentBody (d :: r)).1, (commentBody (d :: r)).2) := by
                intro r
                rw [commentBody]
                intro r' hc hr
                injection hr with hd
                exact hend ⟨hc, hd⟩
              simp only [List.cons_append] at ih ⊢
              rw [step, step, ih]
              simp only [scanComment, List.cons_append, step, List.length_cons] at hfit ⊢
              omega
  rw [scanComment, scanComment, key]

theorem EdgeRest.badUrlLength_append {rest : List Char} {e : Char} (he : isEdge e = true)
    {u cs : List Char} (hfit : badUrlLength (cs ++ e :: u) ≤ cs.length) :
    badUrlLength (cs ++ rest) = badUrlLength cs := by
  have hne : ¬e = ')' ∧ ¬e = '\\' := by
    rcases isEdge_iff.1 he with rfl | rfl | rfl <;> decide
  fun_induction badUrlLength cs with
  | case1 => simp [badUrlLength, hne] at hfit
  | case2 cs => rfl
  | case3 c cs hc ih =>
      simp only [List.cons_append, badUrlLength, if_pos hc, List.length_cons] at hfit ⊢
      rw [ih (by omega)]
  | case4 c cs hc ih =>
      simp only [List.cons_append, badUrlLength, if_neg hc, List.length_cons] at hfit ih ⊢
      rw [ih (by omega)]
  | case5 c cs hclose hescape ih =>
      by_cases hb : c = '\\'
      · cases cs with
        | nil =>
            subst hb
            simp +arith [badUrlLength, hne] at hfit
        | cons d ds => exact absurd rfl (hescape d ds hb)
      · have step : ∀ r, badUrlLength (c :: r) = 1 + badUrlLength r := by
          intro r
          rw [badUrlLength]
          · exact fun hc => hclose hc
          · exact fun d ds hc => absurd hc hb
        rw [List.cons_append, step, List.length_cons] at hfit
        rw [List.cons_append, step, ih (by omega)]

theorem EdgeRest.urlEnd_append {rest : List Char} {e : Char} (he : isEdge e = true)
    {u cs : List Char} (hfit : (urlEnd (cs ++ e :: u)).2 ≤ cs.length) :
    urlEnd (cs ++ rest) = urlEnd cs := by
  induction cs with
  | nil =>
      have hne : ¬e = ')' := by
        rcases isEdge_iff.1 he with rfl | rfl | rfl <;> decide
      simp [urlEnd, hne, isBlank_of_isEdge e he] at hfit
  | cons c cs ih =>
      simp only [List.cons_append, urlEnd, List.length_cons] at hfit ⊢
      by_cases hp : (c == ')') = true
      · simp only [if_pos hp]
      · simp only [if_neg hp] at hfit ⊢
        by_cases hb : isBlank c = true
        · simp only [if_pos hb] at hfit ⊢
          rw [ih (by omega)]
        · simp only [if_neg hb] at hfit ⊢
          have hbad : badUrlLength (cs ++ e :: u) ≤ cs.length := by omega
          rw [EdgeRest.badUrlLength_append he hbad]

theorem EdgeRest.urlFrom_append {rest : List Char} (h : EdgeRest rest) {e : Char}
    (he : isEdge e = true) {u cs : List Char} {skip : Nat}
    (hfit : (urlFrom skip (cs ++ e :: u)).2 ≤ cs.length) :
    urlFrom skip (cs ++ rest) = urlFrom skip cs := by
  induction cs generalizing skip with
  | nil =>
      cases skip with
      | zero =>
          rcases isEdge_iff.1 he with rfl | rfl | rfl <;>
            simp [urlFrom, isBlank, isNewline, isUnprintable] at hfit
      | succ skip => simp [urlFrom] at hfit
  | cons c cs ih =>
      rw [List.length_cons] at hfit
      cases skip with
      | succ skip =>
          simp only [List.cons_append, urlFrom] at hfit ⊢
          rw [ih (by omega)]
      | zero =>
          have hedge : EdgeRest (e :: u) := .cons he
          simp only [List.cons_append, urlFrom, hedge.headIs_append isNewline_of_isEdge] at hfit
          simp only [List.cons_append, urlFrom, h.headIs_append isNewline_of_isEdge]
          by_cases hp : (c == ')') = true
          · simp only [if_pos hp]
          · simp only [if_neg hp] at hfit ⊢
            by_cases hb : isBlank c = true
            · simp only [if_pos hb] at hfit ⊢
              have hend : (urlEnd (cs ++ e :: u)).2 ≤ cs.length := by omega
              rw [EdgeRest.urlEnd_append he hend]
            · simp only [if_neg hb] at hfit ⊢
              have hbad : 1 + badUrlLength (cs ++ e :: u) ≤ cs.length + 1 →
                  badUrlLength (cs ++ rest) = badUrlLength cs := by
                intro hlen
                have hlen' : badUrlLength (cs ++ e :: u) ≤ cs.length := by omega
                exact EdgeRest.badUrlLength_append he hlen'
              split
              · next hx =>
                  rw [if_pos hx] at hfit
                  rw [hbad hfit]
              · next hx =>
                  rw [if_neg hx] at hfit
                  split
                  · next hs =>
                      rw [if_pos hs] at hfit
                      rw [hbad hfit]
                  · next hs =>
                      rw [if_neg hs] at hfit
                      by_cases hbs : (c == '\\') = true
                      · simp only [if_pos hbs] at hfit ⊢
                        cases cs with
                        | nil =>
                            simp [escapeLength_of_isEdge he, urlFrom] at hfit
                        | cons d ds =>
                            rw [hedge.escapeLength_append (by simp)] at hfit
                            rw [h.escapeLength_append (by simp), ih (by omega)]
                      · simp only [if_neg hbs] at hfit ⊢
                        rw [ih (by omega)]

theorem isQuote_of_isEdge (c : Char) (h : isEdge c = true) :
    (c == '"' || c == '\'') = false := by
  rcases isEdge_iff.1 h with rfl | rfl | rfl <;> rfl

theorem EdgeRest.scanUrl_append {rest : List Char} (h : EdgeRest rest) {e : Char}
    (he : isEdge e = true) {u cs : List Char} (hfit : (scanUrl (cs ++ e :: u)).2 ≤ cs.length) :
    scanUrl (cs ++ rest) = scanUrl cs := by
  have hedge : EdgeRest (e :: u) := .cons he
  have hlen : (cs.takeWhile isBlank).length + (cs.dropWhile isBlank).length = cs.length := by
    rw [← List.length_append, List.takeWhile_append_dropWhile]
  simp only [scanUrl, hedge.dropWhile_append isBlank_of_isEdge,
    hedge.takeWhile_append isBlank_of_isEdge, hedge.headIs_append isQuote_of_isEdge] at hfit
  simp only [scanUrl, h.dropWhile_append isBlank_of_isEdge,
    h.takeWhile_append isBlank_of_isEdge, h.headIs_append isQuote_of_isEdge]
  split
  · rfl
  · next hq =>
      rw [if_neg hq] at hfit
      have hurl : (urlFrom 0 (cs.dropWhile isBlank ++ e :: u)).2 ≤ (cs.dropWhile isBlank).length := by
        omega
      rw [h.urlFrom_append he hurl]

/-! ## One token -/

theorem nameLength_le_scanIdent (cs : List Char) : nameLength cs ≤ (scanIdent cs).2 := by
  rw [scanIdent]
  dsimp only
  split
  · split
    · dsimp only
      omega
    · dsimp only
      omega
  · exact Nat.le_refl _

theorem EdgeRest.scanIdent_append {rest : List Char} (h : EdgeRest rest) {e : Char}
    (he : isEdge e = true) {u cs : List Char} (hfit : (scanIdent (cs ++ e :: u)).2 ≤ cs.length) :
    scanIdent (cs ++ rest) = scanIdent cs := by
  have hedge : EdgeRest (e :: u) := .cons he
  have hname : nameLength (cs ++ e :: u) ≤ cs.length :=
    Nat.le_trans (nameLength_le_scanIdent _) hfit
  have hn : nameLength cs ≤ cs.length := by
    rw [← hedge.nameLength_append he hname]
    exact hname
  simp only [scanIdent, hedge.nameLength_append he hname, List.drop_append_of_le_length hn,
    List.take_append_of_le_length hn] at hfit
  simp only [scanIdent, h.nameLength_append he hname, List.drop_append_of_le_length hn,
    List.take_append_of_le_length hn]
  have hlen : (cs.drop (nameLength cs)).length = cs.length - nameLength cs := List.length_drop
  cases hd : cs.drop (nameLength cs) with
  | nil =>
      cases h with
      | nil => rfl
      | @cons c r hc => rcases isEdge_iff.1 hc with rfl | rfl | rfl <;> rfl
  | cons c r =>
      rw [hd] at hfit hlen
      rw [List.length_cons] at hlen
      by_cases hc : c = '('
      · subst hc
        simp only [List.cons_append] at hfit ⊢
        split
        · next hurl =>
            simp only [if_pos hurl] at hfit
            have hscan : (scanUrl (r ++ e :: u)).2 ≤ r.length := by omega
            rw [h.scanUrl_append he hscan]
        · rfl
      · simp [hc]

theorem EdgeRest.isPrefixOf_append {rest : List Char} (h : EdgeRest rest) {word : List Char}
    (hword : ∀ c ∈ word, isEdge c = false) (cs : List Char) :
    word.isPrefixOf (cs ++ rest) = word.isPrefixOf cs := by
  induction word generalizing cs with
  | nil => rfl
  | cons w word ih =>
      cases cs with
      | nil =>
          cases h with
          | nil => rfl
          | @cons c r hc =>
              have hne : (w == c) = false := by
                rw [beq_eq_false_iff_ne]
                intro heq
                have hw := hword w (List.mem_cons_self)
                rw [heq, hc] at hw
                cases hw
              simp [List.isPrefixOf, hne]
      | cons c cs =>
          have hword' : ∀ c ∈ word, isEdge c = false := fun c hc => hword c (List.mem_cons_of_mem w hc)
          rw [List.cons_append, List.isPrefixOf, List.isPrefixOf, ih hword']

/-- All tests that choose the kind of a token look at characters that no edge has. -/
theorem EdgeRest.tests_append {rest : List Char} (h : EdgeRest rest) (c : Char) (cs : List Char) :
    (cs ++ rest).takeWhile isBlank = cs.takeWhile isBlank ∧
      headIs (· == '*') (cs ++ rest) = headIs (· == '*') cs ∧
      startsNumber (c :: (cs ++ rest)) = startsNumber (c :: cs) ∧
      startsNumber (cs ++ rest) = startsNumber cs ∧
      ['-', '-', '>'].isPrefixOf (c :: (cs ++ rest)) = ['-', '-', '>'].isPrefixOf (c :: cs) ∧
      ['<', '!', '-', '-'].isPrefixOf (c :: (cs ++ rest)) = ['<', '!', '-', '-'].isPrefixOf (c :: cs) ∧
      startsName (c :: (cs ++ rest)) = startsName (c :: cs) ∧
      startsName (cs ++ rest) = startsName cs ∧
      headIs (fun d => d.isDigit || d == '-') (cs ++ rest) =
        headIs (fun d => d.isDigit || d == '-') cs := by
  have hstar : ∀ d, isEdge d = true → (d == '*') = false := by
    intro d hd
    rcases isEdge_iff.1 hd with rfl | rfl | rfl <;> rfl
  have hhash : ∀ d, isEdge d = true → (d.isDigit || d == '-') = false := by
    intro d hd
    rcases isEdge_iff.1 hd with rfl | rfl | rfl <;> rfl
  exact ⟨h.takeWhile_append isBlank_of_isEdge cs, h.headIs_append hstar cs,
    h.startsNumber_append (c :: cs), h.startsNumber_append cs,
    h.isPrefixOf_append (by simp [isEdge]) (c :: cs), h.isPrefixOf_append (by simp [isEdge]) (c :: cs),
    h.startsName_append (c :: cs), h.startsName_append cs, h.headIs_append hhash cs⟩

/-- The token at the start of a text is the same before every edge, if it ends before one. -/
theorem EdgeRest.scan_append {rest : List Char} (h : EdgeRest rest) {e : Char}
    (he : isEdge e = true) {c : Char} {u cs : List Char}
    (hfit : (scan c (cs ++ e :: u)).2 ≤ cs.length + 1) :
    scan c (cs ++ rest) = scan c cs := by
  have hedge : EdgeRest (e :: u) := .cons he
  obtain ⟨t₁, t₂, t₃, t₄, t₅, t₆, t₇, t₈, t₉⟩ := hedge.tests_append c cs
  rw [scan.eq_def, t₁, t₂, t₃, t₄, t₅, t₆, t₇, t₈, t₉] at hfit
  obtain ⟨r₁, r₂, r₃, r₄, r₅, r₆, r₇, r₈, r₉⟩ := h.tests_append c cs
  rw [scan.eq_def, scan.eq_def c cs, r₁, r₂, r₃, r₄, r₅, r₆, r₇, r₈, r₉]
  refine ite_congr rfl (fun _ => rfl) (fun hblank => ?_)
  rw [if_neg hblank] at hfit
  refine ite_congr rfl (fun hcomment => ?_) (fun hcomment => ?_)
  · rw [if_pos hcomment] at hfit
    cases cs with
    | nil => simp [headIs] at hcomment
    | cons d ds =>
        simp only [List.cons_append, List.drop_succ_cons, List.drop_zero, List.length_cons]
          at hfit ⊢
        have hscan : (scanComment (ds ++ e :: u)).2 ≤ ds.length := by omega
        rw [EdgeRest.scanComment_append he hscan]
  rw [if_neg hcomment] at hfit
  refine ite_congr rfl (fun hquote => ?_) (fun hquote => ?_)
  · rw [if_pos hquote] at hfit
    have hq : isEdge c = false := by
      cases hc : isEdge c with
      | false => rfl
      | true =>
          rw [isQuote_of_isEdge c hc] at hquote
          cases hquote
    have hscan : (stringFrom c 0 (cs ++ e :: u)).2 ≤ cs.length := by
      dsimp only at hfit
      omega
    rw [h.stringFrom_append he hq hscan]
  rw [if_neg hquote] at hfit
  refine ite_congr rfl (fun hnumber => ?_) (fun hnumber => ?_)
  · rw [if_pos hnumber] at hfit
    have hscan : numberLength ((c :: cs) ++ e :: u) ≤ (c :: cs).length := hfit
    rw [← List.cons_append, h.numberLength_append he hscan]
  rw [if_neg hnumber] at hfit
  refine ite_congr rfl (fun hsign => ?_) (fun hsign => ?_)
  · rw [if_pos hsign] at hfit
    have hscan : numberLength (cs ++ e :: u) ≤ cs.length := by
      dsimp only at hfit
      omega
    rw [h.numberLength_append he hscan]
  rw [if_neg hsign] at hfit
  refine ite_congr rfl (fun _ => rfl) (fun hclosing => ?_)
  rw [if_neg hclosing] at hfit
  refine ite_congr rfl (fun _ => rfl) (fun hopening => ?_)
  rw [if_neg hopening] at hfit
  refine ite_congr rfl (fun hname => ?_) (fun hname => ?_)
  · rw [if_pos hname] at hfit
    have hscan : (scanIdent ((c :: cs) ++ e :: u)).2 ≤ (c :: cs).length := hfit
    rw [← List.cons_append, h.scanIdent_append he hscan]
  rw [if_neg hname] at hfit
  refine ite_congr rfl (fun hat => ?_) (fun hat => ?_)
  · rw [if_pos hat] at hfit
    have hscan : nameLength (cs ++ e :: u) ≤ cs.length := by
      dsimp only at hfit
      omega
    have hn : nameLength cs ≤ cs.length := by
      rw [← hedge.nameLength_append he hscan]
      exact hscan
    dsimp only
    rw [h.nameLength_append he hscan, List.take_append_of_le_length hn]
  rw [if_neg hat] at hfit
  refine ite_congr rfl (fun hmark => ?_) (fun _ => rfl)
  rw [if_pos hmark] at hfit
  have hscan : nameLength (cs ++ e :: u) ≤ cs.length := by
    dsimp only at hfit
    omega
  rw [h.nameLength_append he hscan]

/-! ## All tokens -/

@[simp] theorem tokenize_nil : tokenize [] = [] := rfl

/-- The first token of a text, and the tokens of what is left. -/
theorem tokenize_cons (c : Char) (cs : List Char) :
    tokenize (c :: cs) = ⟨(scan c cs).1, c :: cs.take ((scan c cs).2 - 1)⟩ ::
      tokenize (cs.drop ((scan c cs).2 - 1)) := by
  rw [← tokenizeFrom_eq_tokenize_drop]
  rfl

/-- Every token is cut at the start of what is left of the text there. -/
theorem exists_scan_of_mem {t : Token} {skip : Nat} {cs : List Char}
    (h : t ∈ tokenizeFrom skip cs) : ∃ c rest, c :: rest <:+ cs ∧
      t = ⟨(scan c rest).1, c :: rest.take ((scan c rest).2 - 1)⟩ := by
  induction cs generalizing skip with
  | nil => simp [tokenizeFrom] at h
  | cons c cs ih =>
      have later : ∀ {k : Nat}, t ∈ tokenizeFrom k cs → ∃ d rest, d :: rest <:+ c :: cs ∧
          t = ⟨(scan d rest).1, d :: rest.take ((scan d rest).2 - 1)⟩ := by
        intro k hk
        obtain ⟨d, rest, hsuffix, ht⟩ := ih hk
        exact ⟨d, rest, hsuffix.trans (List.suffix_cons c cs), ht⟩
      cases skip with
      | zero =>
          rw [tokenizeFrom] at h
          rcases List.mem_cons.1 h with rfl | h
          · exact ⟨c, cs, List.suffix_refl _, rfl⟩
          · exact later h
      | succ skip => exact later h

/-- The tokens after some tokens of a text are the tokens of the rest of the text. -/
theorem eq_tokenize_of_append {cs : List Char} {ts us : List Token} (h : tokenize cs = ts ++ us)
    {rest : List Char} (hcs : cs = textOf ts ++ rest) : us = tokenize rest := by
  induction ts generalizing cs with
  | nil =>
      rw [List.nil_append] at h
      rw [textOf_nil, List.nil_append] at hcs
      rw [← h, hcs]
  | cons t ts ih =>
      cases cs with
      | nil => exact absurd h (by simp)
      | cons c cs =>
          rw [tokenize_cons, List.cons_append, List.cons.injEq] at h
          obtain ⟨ht, hts⟩ := h
          rw [textOf_cons, ← ht, List.cons_append, List.cons_append, List.cons.injEq] at hcs
          refine ih hts ?_
          have hsplit := List.take_append_drop ((scan c cs).2 - 1) cs
          have hboth := hsplit.trans (hcs.2.trans (List.append_assoc _ _ _))
          exact List.append_cancel_left hboth

/-- If there is a token boundary before an edge, the tokens before it do not depend on what comes
after it, as long as that starts at an edge again. -/
theorem tokenize_append_of_edge {x u : List Char} {e : Char} {ts us : List Token}
    (he : isEdge e = true) (h : tokenize (x ++ e :: u) = ts ++ us) (hx : textOf ts = x)
    {rest : List Char} (hrest : EdgeRest rest) :
    tokenize (x ++ rest) = ts ++ tokenize rest := by
  induction ts generalizing x with
  | nil =>
      rw [← hx]
      rfl
  | cons t ts ih =>
      cases x with
      | nil =>
          -- A token has at least one character.
          have hmem : t ∈ tokenizeFrom 0 ([] ++ e :: u) := by
            rw [← tokenize, h]
            exact List.mem_cons_self
          have htext := text_ne_nil_of_mem_tokenizeFrom hmem
          rw [textOf_cons] at hx
          exact absurd (List.append_eq_nil_iff.1 hx).1 htext
      | cons c cs =>
          rw [List.cons_append, tokenize_cons, List.cons_append, List.cons.injEq] at h
          obtain ⟨ht, hts⟩ := h
          rw [textOf_cons, ← ht, List.cons_append, List.cons.injEq] at hx
          have hlen : (scan c (cs ++ e :: u)).2 - 1 ≤ cs.length := by
            have hle := congrArg List.length hx.2
            simp only [List.length_append, List.length_take, List.length_cons] at hle
            omega
          have hfit : (scan c (cs ++ e :: u)).2 ≤ cs.length + 1 := by omega
          have hscan := hrest.scan_append he hfit
          have hscan' : scan c (cs ++ e :: u) = scan c cs := EdgeRest.scan_append (.cons he) he hfit
          rw [hscan'] at ht hts hlen hx
          rw [List.drop_append_of_le_length hlen] at hts
          rw [List.take_append_of_le_length hlen] at hx ht
          have hrec : textOf ts = cs.drop ((scan c cs).2 - 1) := by
            have hsplit := List.take_append_drop ((scan c cs).2 - 1) cs
            exact List.append_cancel_left (hx.2.trans hsplit.symm)
          rw [List.cons_append, tokenize_cons, hscan, List.take_append_of_le_length hlen, ht,
            List.drop_append_of_le_length hlen, ih hts hrec, List.cons_append]

end Stylesheet.Token
