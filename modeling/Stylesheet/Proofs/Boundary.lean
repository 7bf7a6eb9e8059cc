import Stylesheet.Proofs.ItemReading
import Stylesheet.Proofs.Weight

/-!
# Reading up to a boundary

A text ends at a *boundary* when nothing is left open at its end and its last token is a semicolon or the
closing bracket of a `{}` block, outside all other blocks.  What is written behind a boundary is cut into
tokens by itself (`tokenize_append_boundary`) and grouped by itself (`components_append`).

It is not always read by itself.  Of a `{}` block with nothing before it the reader keeps the rest of the
text, and when a rule or a declaration follows directly, this becomes part of it.  That is the only thing
that passes a boundary (`nodes_append_boundary`), and `leaks` says when it is seen in the nodes.  So reading
distributes over a boundary just when nothing leaks (`nodes_ofText_append_iff`).
-/

namespace Stylesheet.Node

open Stylesheet.Text (trim Lasting)
open Component (isInner startsItem textOf tokensOf group AllClosed Closed)

/-! ## Boundaries -/

/-- The component values of a text. -/
def components (text : String) : List Component := group (Token.tokenize text.toList)

/-- Does an item end with a component value, and is nothing open behind it? -/
def isBoundary : Component → Bool
  | .token t => t.kind == .semicolon
  | .block .curly _ _ closer => closer.isSome
  | .block _ _ _ _ => false

/-- Does a text end at a boundary? -/
def endsAtBoundary (text : String) : Bool := (components text).getLast?.any isBoundary

/-- A component value at which a text ends. -/
inductive Boundary : Component → Prop
  | semicolon : Boundary (.token Token.semicolon)
  | block (opener : Token) (body : List Component) :
      Boundary (.block .curly opener body (some Token.closeCurly))

theorem boundary_of_closed {c : Component} (h : isBoundary c = true) (hclosed : Closed none c)
    (hshaped : ∀ t ∈ Component.tokens c, t.Shaped) : Boundary c := by
  cases c with
  | token t =>
      have hkind : t.kind = .semicolon := eq_of_beq h
      have htext := hshaped t (by simp [Component.tokens])
      rw [Token.Shaped, hkind] at htext
      have ht : t = Token.semicolon := by rw [Token.semicolon, ← hkind, ← htext]
      rw [ht]
      exact .semicolon
  | block bracket opener body closer =>
      rw [Closed] at hclosed
      obtain ⟨-, ⟨t, rfl, hkind⟩, -⟩ := hclosed
      cases bracket with
      | paren | square => cases h
      | curly =>
          have htext := hshaped t (by simp [Component.tokens])
          rw [Token.Shaped, hkind] at htext
          have ht : t = Token.closeCurly := by rw [Token.closeCurly, ← hkind, ← htext]
          rw [ht]
          exact .block opener body

/-- A text that ends at a boundary ends with a semicolon or a `{}` block, and nothing is left open. -/
theorem exists_boundary {text : String} (h : endsAtBoundary text = true) :
    AllClosed none (components text) ∧
      ∃ before last, components text = before ++ [last] ∧ Boundary last := by
  obtain ⟨last, hlast, hboundary⟩ := (Option.any_eq_true _ _).1 h
  obtain ⟨before, hbefore⟩ := List.getLast?_eq_some_iff.1 hlast
  have hgrouped := Component.group_grouped (Token.tokenize text.toList)
  rw [← components, hbefore] at hgrouped
  obtain ⟨hfront, hend⟩ := hgrouped.closed_of_append (List.cons_ne_nil last [])
  have hclosed : Closed none last := by
    refine hend.head.resolve_right fun hcut => ?_
    rw [Component.CutOff.eq_def] at hcut
    split at hcut
    · exact hcut
    · next bracket opener body closer =>
        obtain ⟨-, rfl, -⟩ := hcut
        cases bracket with
        | curly | paren | square => cases hboundary
  have hshaped : ∀ t ∈ Component.tokens last, t.Shaped := by
    intro t ht
    have hmem : t ∈ Token.tokenize text.toList := by
      rw [← Component.tokensOf_group (Token.tokenize text.toList), ← components, hbefore,
        Component.tokensOf_append, Component.tokensOf_cons]
      exact List.mem_append_right _ (List.mem_append_left _ ht)
    exact Token.shaped_tokenize hmem
  refine ⟨?_, before, last, hbefore, boundary_of_closed hboundary hclosed hshaped⟩
  rw [hbefore]
  refine hfront.append ?_
  rw [AllClosed, AllClosed]
  exact ⟨hclosed, trivial⟩

/-- The last token before a boundary is a semicolon or a closing bracket. -/
theorem exists_last_token {text : String} (h : endsAtBoundary text = true) :
    ∃ before t, Token.tokenize text.toList = before ++ [t] ∧
      (t = Token.semicolon ∨ t = Token.closeCurly) := by
  obtain ⟨-, before, last, hlast, hboundary⟩ := exists_boundary h
  have htokens := Component.tokensOf_group (Token.tokenize text.toList)
  rw [← components, hlast, Component.tokensOf_append, Component.tokensOf_cons,
    Component.tokensOf_nil, List.append_nil] at htokens
  cases hboundary with
  | semicolon => exact ⟨tokensOf before, _, by rw [← htokens, Component.tokens], .inl rfl⟩
  | block opener body =>
      refine ⟨tokensOf before ++ opener :: tokensOf body, _, ?_, .inr rfl⟩
      rw [← htokens, Component.tokens, Option.toList_some, List.append_assoc]

/-- Behind a token that is an edge of its own, a text is cut into tokens by itself. -/
theorem tokenize_append_of_last {x y : List Char} {before : List Token} {t : Token} {e : Char}
    (hx : Token.tokenize x = before ++ [t]) (ht : t.text = [e]) (he : Token.isEdge e = true)
    (hone : ∀ rest, Token.tokenize (e :: rest) = t :: Token.tokenize rest) :
    Token.tokenize (x ++ y) = Token.tokenize x ++ Token.tokenize y := by
  have htext : x = Token.textOf before ++ [e] := by
    rw [← Token.textOf_tokenize x, hx, Token.textOf_append, Token.textOf_cons, ht, Token.textOf_nil,
      List.append_nil]
  have hcut : Token.tokenize (Token.textOf before ++ e :: []) = before ++ [t] := by
    rw [← hx, htext]
  rw [hx, htext, List.append_assoc, List.singleton_append,
    Token.tokenize_append_of_edge he hcut rfl (.cons he), hone, List.append_assoc,
    List.singleton_append]

/-- What is written behind a boundary is cut into tokens by itself. -/
theorem tokenize_append_boundary {a : String} (h : endsAtBoundary a = true) (b : String) :
    Token.tokenize (a ++ b).toList = Token.tokenize a.toList ++ Token.tokenize b.toList := by
  obtain ⟨before, t, hbefore, rfl | rfl⟩ := exists_last_token h
  · rw [String.toList_append]
    exact tokenize_append_of_last hbefore rfl rfl Token.tokenize_semicolon
  · rw [String.toList_append]
    exact tokenize_append_of_last hbefore rfl rfl Token.tokenize_closeCurly

theorem components_append {a : String} (h : endsAtBoundary a = true) (b : String) :
    components (a ++ b) = components a ++ components b := by
  rw [components, tokenize_append_boundary h, Component.group_append (exists_boundary h).1]
  rfl

/-! ## What passes a boundary -/

/-- What is seen of the next item after some component values. -/
def readAfter (pending : Pending) : List Component → Pending
  | [] => pending
  | c :: cs => readAfter (readStep pending c).2 cs

theorem readAfter_append (p : Pending) (a b : List Component) :
    readAfter p (a ++ b) = readAfter (readAfter p a) b := by
  induction a generalizing p with
  | nil => rfl
  | cons c cs ih => exact ih (readStep p c).2

/-- Between two items the nodes before are complete. -/
theorem readFrom_append_of_between {a : List Component} {p : Pending} {text : List Char}
    (h : readAfter p a = .between text) (b : List Component) :
    readFrom p (a ++ b) = readFrom p a ++ readFrom (.between text) b := by
  induction a generalizing p with
  | nil =>
      obtain rfl : p = .between text := h
      rw [readFrom, Pending.finish]
      rfl
  | cons c cs ih =>
      rw [List.cons_append, readFrom, readFrom, List.append_assoc]
      exact congrArg _ (ih h)

/-- The text of a dropped block at the end of some component values, without its opening bracket. -/
def dropped (cs : List Component) : List Char :=
  match readAfter (.between []) cs with
  | .between text => text
  | _ => []

/-- A boundary is between two items.  If it ends a dropped block, its bracket is in the text that is
kept. -/
theorem readAfter_boundary {text : String} (h : endsAtBoundary text = true) :
    readAfter (.between []) (components text) = .between (dropped (components text)) ∧
      (dropped (components text) = [] ∨ '\x7d' ∈ dropped (components text)) := by
  obtain ⟨-, before, last, hlast, hboundary⟩ := exists_boundary h
  obtain ⟨kept, hkept, hbracket⟩ : ∃ kept,
      (readStep (readAfter (.between []) before) last).2 = .between kept ∧
        (kept = [] ∨ '\x7d' ∈ kept) := by
    cases hboundary with
    | semicolon =>
        refine ⟨[], ?_, .inl rfl⟩
        cases readAfter (.between []) before with
        | between | atRule | item => rfl
    | block opener body =>
        cases readAfter (.between []) before with
        | between text =>
            exact ⟨_, rfl, .inr (List.mem_append_right _ (List.mem_singleton_self _))⟩
        | atRule | item => exact ⟨[], rfl, .inl rfl⟩
  have hafter : readAfter (.between []) (components text) = .between kept := by
    rw [hlast, readAfter_append, ← hkept]
    rfl
  have hdropped : dropped (components text) = kept := by rw [dropped, hafter]
  rw [hdropped]
  exact ⟨hafter, hbracket⟩

/-- Behind a boundary, reading goes on with the text of a block that was dropped just before. -/
theorem nodes_append_boundary {a : String} (h : endsAtBoundary a = true) (b : String) :
    (Document.ofText (a ++ b)).nodes =
      (Document.ofText a).nodes ++ readFrom (.between (dropped (components a))) (components b) := by
  show readFrom (.between []) (components (a ++ b)) = readFrom (.between []) (components a) ++ _
  rw [components_append h, readFrom_append_of_between (readAfter_boundary h).1]

/-! ## When it is seen -/

/-- Is a component value a `{}` block? -/
def isCurlyBlock : Component → Bool
  | .block .curly _ _ _ => true
  | _ => false

/-- The head of a rule or declaration that comes first. -/
def firstHead (cs : List Component) : List Component :=
  if cs.head?.any startsItem then cs.takeWhile (isInner false) else []

/-- Does the text of a dropped block get into the nodes of what follows it?  It gets into the selector of a
rule.  It gets into a declaration if there is one, with it or without it. -/
def leaks (dropped : List Char) (cs : List Component) : Bool :=
  let head := firstHead cs
  !dropped.isEmpty && !head.isEmpty &&
    ((cs.drop head.length).head?.any isCurlyBlock ||
      (Declaration.ofText? (dropped ++ textOf head)).isSome ||
      (Declaration.ofText? (textOf head)).isSome)

/-- A text with a bracket in front is another declaration, unless neither is one. -/
theorem ofText?_append_eq_iff {dropped : List Char} (h : '\x7d' ∈ dropped) (text : List Char) :
    Declaration.ofText? (dropped ++ text) = Declaration.ofText? text ↔
      Declaration.ofText? (dropped ++ text) = none ∧ Declaration.ofText? text = none := by
  have hlasting : Lasting (· == '\x7d') := .of_eq rfl rfl
  constructor
  · intro heq
    cases hd : Declaration.ofText? text with
    | none => exact ⟨heq.trans hd, rfl⟩
    | some d =>
        have hcount := Declaration.countP_declarationText hlasting (heq.trans hd)
        rw [Declaration.countP_declarationText hlasting hd, List.countP_append] at hcount
        have hpos : 0 < dropped.countP (· == '\x7d') := List.countP_pos_iff.2 ⟨_, h, rfl⟩
        omega
  · rintro ⟨hdropped, htext⟩
    rw [hdropped, htext]

/-- A selector with a bracket in front is another one. -/
theorem trim_append_ne {dropped : List Char} (h : '\x7d' ∈ dropped) (text : List Char) :
    trim (dropped ++ text) ≠ trim text := by
  intro heq
  have hlasting : Lasting (· == '\x7d') := .of_eq rfl rfl
  have hcount := congrArg (List.countP (· == '\x7d')) heq
  rw [hlasting.countP_trim, hlasting.countP_trim, List.countP_append] at hcount
  have hpos : 0 < dropped.countP (· == '\x7d') := List.countP_pos_iff.2 ⟨_, h, rfl⟩
  omega

theorem firstHead_of_item {c : Component} {inner rest : List Component}
    (hstart : startsItem c = true) (hinner : ∀ d ∈ c :: inner, isInner false d = true)
    (hrest : rest.takeWhile (isInner false) = []) :
    firstHead (c :: inner ++ rest) = c :: inner := by
  have hhead : (c :: inner ++ rest).head?.any startsItem = true := hstart
  rw [firstHead, if_pos hhead, List.takeWhile_append_of_pos hinner, hrest, List.append_nil]

/-- Where no rule or declaration comes first, nothing becomes of a dropped block. -/
theorem readStep_of_not_item {c : Component} (h : ¬(startsItem c = true ∧ isInner false c = true))
    (dropped : List Char) : readStep (.between dropped) c = readStep (.between []) c := by
  cases c with
  | token t =>
      rw [readStep, readStep, readToken.eq_def, readToken.eq_def]
      cases hkind : t.kind with
      | blank | legacyMark | comment | atKeyword | semicolon => rfl
      | closing bracket =>
          exact absurd ⟨by simp [startsItem, hkind], by cases bracket <;> simp [isInner, hkind]⟩ h
      | string | badString | url | badUrl | ident | number | hash | opening | delim =>
          exact absurd ⟨by simp [startsItem, hkind], by simp [isInner, hkind]⟩ h
  | block bracket opener body closer =>
      cases bracket with
      | curly => rfl
      | paren | square => exact absurd ⟨rfl, rfl⟩ h

theorem finish_item_eq_iff {a b : List Char} :
    Pending.finish (.item a) = Pending.finish (.item b) ↔
      Declaration.ofText? a = Declaration.ofText? b := by
  rw [Pending.finish, Pending.finish]
  cases Declaration.ofText? a with
  | none => cases Declaration.ofText? b <;> simp
  | some d => cases Declaration.ofText? b <;> simp

section Leaking

variable {dropped : List Char} {stop rest : List Component}

/-- An item without a block is another one with a bracket in front, unless it is dropped with it and
without it. -/
theorem readFrom_stop_iff (h : '\x7d' ∈ dropped) (hstop : Stop stop rest) (text : List Char) :
    readFrom (.item (dropped ++ text)) (stop ++ rest) = readFrom (.item text) (stop ++ rest) ↔
      ((Declaration.ofText? (dropped ++ text)).isSome ||
        (Declaration.ofText? text).isSome) = false := by
  rw [hstop.readFrom_append, hstop.readFrom_append, List.append_cancel_right_eq, finish_item_eq_iff,
    ofText?_append_eq_iff h, Bool.or_eq_false_iff, Option.isSome_eq_false_iff,
    Option.isSome_eq_false_iff, Option.isNone_iff_eq_none, Option.isNone_iff_eq_none]

/-- The text of a dropped block makes a difference just when it leaks. -/
theorem readFrom_dropped_iff (h : dropped = [] ∨ '\x7d' ∈ dropped) (cs : List Component) :
    readFrom (.between dropped) cs = readFrom (.between []) cs ↔ leaks dropped cs = false := by
  rcases h with rfl | h
  · exact iff_of_true rfl rfl
  have hdropped : dropped.isEmpty = false := List.isEmpty_eq_false_iff.2 (List.ne_nil_of_mem h)
  cases cs with
  | nil => exact iff_of_true rfl (by rw [leaks, hdropped]; rfl)
  | cons c cs =>
      by_cases hc : startsItem c = true ∧ isInner false c = true
      · obtain ⟨inner, rest, rfl, hinner, hrest⟩ := exists_inner cs
        have hall : ∀ d ∈ c :: inner, isInner false d = true :=
          List.forall_mem_cons.2 ⟨hc.2, hinner⟩
        have hhead : rest.takeWhile (isInner false) = [] := by
          rcases hrest with rfl | ⟨t, rest, rfl, hkind⟩ | ⟨opener, body, closer, rest, rfl⟩
          · rfl
          · simp [isInner, hkind]
          · simp [isInner]
        rw [← List.cons_append, readFrom_item_dropped dropped hc.1 hall, readFrom_item hc.1 hall, leaks,
          firstHead_of_item hc.1 hall hhead]
        simp only [hdropped, List.drop_left, List.isEmpty_cons, Bool.not_false, Bool.true_and]
        -- A rule bears the text in its selector, and an item without a block may be a declaration.
        rcases hrest with rfl | ⟨t, rest, rfl, hkind⟩ | ⟨opener, body, closer, rest, rfl⟩
        · exact readFrom_stop_iff h .atEnd _
        · exact readFrom_stop_iff h (.semicolon rest hkind) _
        · refine iff_of_false (fun heq => ?_) (by simp [isCurlyBlock])
          rw [readFrom, readFrom, readStep, readStep] at heq
          obtain ⟨hselector, -⟩ := Node.rule.inj (List.cons.inj heq).1
          exact trim_append_ne h _ (String.ofList_injective hselector)
      · have hnone : firstHead (c :: cs) = [] := by
          rw [firstHead]
          split
          · next hstart =>
              exact List.takeWhile_cons_of_neg fun hinner => hc ⟨hstart, hinner⟩
          · rfl
        rw [readFrom, readFrom, readStep_of_not_item hc, leaks, hnone]
        exact iff_of_true rfl (by simp)

end Leaking

/-- Behind a boundary a text is read by itself, if and only if nothing of a block that was dropped just
before gets into its first node. -/
theorem nodes_ofText_append_iff {a : String} (h : endsAtBoundary a = true) (b : String) :
    (Document.ofText (a ++ b)).nodes = (Document.ofText a).nodes ++ (Document.ofText b).nodes ↔
      leaks (dropped (components a)) (components b) = false := by
  rw [nodes_append_boundary h, List.append_cancel_left_eq,
    ← readFrom_dropped_iff (readAfter_boundary h).2]
  rfl

/-- A declaration behind a dropped block gets the rest of the block in front of its property. -/
theorem nodes_ofText_dropped :
    endsAtBoundary "\x7bx\x7d" = true ∧
      (Document.ofText ("\x7bx\x7d" ++ "a:b")).nodes ≠
        (Document.ofText "\x7bx\x7d").nodes ++ (Document.ofText "a:b").nodes := by
  have h : endsAtBoundary "\x7bx\x7d" = true := by decide +kernel
  have hleaks : leaks (dropped (components "\x7bx\x7d")) (components "a:b") = true := by
    decide +kernel
  refine ⟨h, fun heq => ?_⟩
  rw [(nodes_ofText_append_iff h "a:b").1 heq] at hleaks
  exact Bool.false_ne_true hleaks

end Stylesheet.Node
