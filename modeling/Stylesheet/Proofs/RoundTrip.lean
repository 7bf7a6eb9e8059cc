import Stylesheet.Proofs.Legible
import Stylesheet.Proofs.Trimming

/-!
# Reading what was written

`Document.ofText_render`: a stylesheet whose heads are legible is read back from its text, in either
style, if its own texts are such that the reader can give them back at all (`Settled`): selectors and
parameters are trimmed and already as the style writes them, a declaration is the one that its text
writes, no comment holds its own closing mark.

The proof goes through the component values.  A node with the semicolon that a style may still owe
it (`closedText`) gives component values that do not depend on what follows, and the reader makes
exactly that node of them (`ReadsAs`).  Only the last declaration of a minified block is read
differently: what ends it is the end of the block.
-/

namespace Stylesheet.Node

open Stylesheet.Text (trim Spaces Trimmed)
open Component (Gives isInner startsItem isKeyword textOf blanks)

/-! ## Settled trees -/

/-- Are the parameters of an at-rule as a style writes and the reader returns them? -/
def AtSettled (style : Style) (name params : String) : Prop :=
  Text.lower name.toList = name.toList ∧ Trimmed params.toList ∧
    headText style (atHead name params) = atHead name params

mutual

/-- Are the texts of a node and of everything in it as a style writes and the reader returns
them? -/
def Settled (style : Style) : Node → Prop
  | .rule selector children =>
      Trimmed selector.toList ∧ headText style selector.toList = selector.toList ∧
        SettledAll style children
  | .layer name children =>
      name ≠ some "" ∧ AtSettled style "layer" (name.getD "") ∧ SettledAll style children
  | .media condition children => AtSettled style "media" condition ∧ SettledAll style children
  | .atRule name params children =>
      name ≠ "layer" ∧ name ≠ "media" ∧ AtSettled style name params ∧ SettledAll style children
  | .declaration d => Declaration.ofText? (declarationText style d) = some d
  | .statement name params => AtSettled style name params
  | .comment text => Text.occurs ['*', '/'] text.toList = false
termination_by structural node => node

/-- Are the texts of some nodes and of everything in them as a style writes and the reader returns
them? -/
def SettledAll (style : Style) : List Node → Prop
  | [] => True
  | n :: ns => Settled style n ∧ SettledAll style ns
termination_by structural nodes => nodes

end

/-! ## Texts that are read as nodes -/

/-- Does a text start with something else than a blank? -/
def Visible (text : List Char) : Prop :=
  ∀ rest, Text.headIs Token.isBlank (text ++ rest) = false

/-- Whatever follows, the text is read as this one node. -/
def ReadsAs (nested : Bool) (text : List Char) (n : Node) : Prop :=
  Visible text ∧ ∃ cs, Gives nested text (fun _ => True) cs ∧
    ∀ rest, readFrom (.between []) (cs ++ rest) = n :: readFrom (.between []) rest

/-- What may follow a list of nodes: anything, but only an edge when a semicolon may be missing. -/
def MayFollow (style : Style) (rest : List Char) : Prop := style = .minified → Token.EdgeRest rest

/-- The text is read as these nodes.  In the minified style nothing may follow them in their
block. -/
def AreRead (style : Style) (nested : Bool) (text : List Char) (nodes : List Node) : Prop :=
  ∃ cs, Gives nested text (MayFollow style) cs ∧
    ∀ rest, (style = .minified → rest = []) →
      readFrom (.between []) (cs ++ rest) = nodes ++ readFrom (.between []) rest

/-! ## Heads with blocks -/

theorem trim_gap (style : Style) {head : List Char} (h : Trimmed head) :
    trim (head ++ gapBeforeBlock style) = head := by
  have hgap : Spaces (gapBeforeBlock style) := by
    cases style with
    | pretty => simp [gapBeforeBlock, Spaces, Text.isSpace]
    | minified => exact Text.spaces_nil
  have htrim := Text.trim_eq_of_trimmed Text.spaces_nil h hgap
  rwa [List.nil_append] at htrim

/-- The parameters of an at-rule as they are written after its at-keyword. -/
def paramsText (params : String) : List Char := if params.isEmpty then [] else ' ' :: params.toList

theorem atHead_eq (name params : String) :
    atHead name params = '@' :: name.toList ++ paramsText params := rfl

/-- What stands between an at-keyword and the bracket or semicolon, without the spaces around it. -/
theorem trim_params {params : String} (h : Trimmed params.toList) (style : Style) :
    trim (paramsText params ++ gapBeforeBlock style) = params.toList := by
  rw [paramsText]
  split
  · next hempty =>
      have hnil : params.toList = [] := by simpa [String.isEmpty_iff] using hempty
      rw [hnil]
      exact trim_gap style Text.trimmed_nil
  · have hspace : Spaces [' '] := by simp [Spaces, Text.isSpace]
    have hgap := Text.trim_spaces hspace Text.spaces_nil (params.toList ++ gapBeforeBlock style)
    rw [List.append_nil, List.singleton_append, ← List.cons_append] at hgap
    rw [hgap, trim_gap style h]

/-- The contents of a block are read as some nodes. -/
def BlockReads (inside : List Char) (children : List Node) : Prop :=
  ∃ cs rests, Gives true inside rests cs ∧ (∀ rest, rests ('\x7d' :: rest)) ∧
    readFrom (.between []) cs = children

/-- A legible rule is read as that rule. -/
theorem readsAs_rule {style : Style} {nested : Bool} {selector : String} {inside : List Char}
    {children : List Node} (hlegible : opensBlock style nested startsItem selector.toList = true)
    (htrimmed : Trimmed selector.toList)
    (hhead : headText style selector.toList = selector.toList)
    (hinside : BlockReads inside children) :
    ReadsAs nested (headText style selector.toList ++ gapBeforeBlock style ++
      ('\x7b' :: inside ++ ['\x7d'])) (.rule selector children) := by
  obtain ⟨c, cs, hgives, htext, hc, hinner⟩ :=
    Component.gives_of_isHead rfl Component.tokens_of_isOpenCurly hlegible
  obtain ⟨body, rests, hbody, hrests, hchildren⟩ := hinside
  refine ⟨?_, _, hgives.append (hbody.block hrests nested) fun rest _ => .cons rfl, ?_⟩
  · intro rest
    rw [List.append_assoc]
    exact hgives.head_not_blank (.inl hc) _
  · intro rest
    rw [List.append_assoc, List.singleton_append, readFrom_item hc hinner, readFrom, readStep, htext,
      hhead, trim_gap style htrimmed, hchildren, String.ofList_toList]
    rfl

/-- The parameters of a head whose first component value is its at-keyword. -/
theorem textOf_params {style : Style} {name params : String} {c : Component} {cs : List Component}
    {gap : List Char} (hc : isKeyword name c = true) (hsettled : AtSettled style name params)
    (htext : textOf (c :: cs) = headText style (atHead name params) ++ gap) :
    textOf cs = paramsText params ++ gap := by
  cases c with
  | block b opener body closer => exact absurd hc (by simp [isKeyword])
  | token t =>
      rw [isKeyword, beq_iff_eq] at hc
      rw [textOf, Component.text, hc, hsettled.2.2, atHead_eq, List.append_assoc] at htext
      exact List.append_cancel_left htext

/-- Only the trimmed parameters count. -/
theorem ofAtRule_trim (name : String) {a b : List Char} (h : trim a = trim b)
    (children : List Node) : ofAtRule name a children = ofAtRule name b children := by
  rw [ofAtRule.eq_def, ofAtRule.eq_def name b, h]

/-- A legible at-rule with a block is read as that at-rule. -/
theorem readsAs_atRule {style : Style} {nested : Bool} {name params : String} {inside : List Char}
    {children : List Node}
    (hlegible : opensBlock style nested (isKeyword name) (atHead name params) = true)
    (hsettled : AtSettled style name params) (hinside : BlockReads inside children) :
    ReadsAs nested (headText style (atHead name params) ++ gapBeforeBlock style ++
      ('\x7b' :: inside ++ ['\x7d'])) (ofAtRule name params.toList children) := by
  obtain ⟨c, cs, hgives, htext, hc, hinner⟩ :=
    Component.gives_of_isHead rfl Component.tokens_of_isOpenCurly hlegible
  obtain ⟨body, rests, hbody, hrests, hchildren⟩ := hinside
  refine ⟨?_, _, hgives.append (hbody.block hrests nested) fun rest _ => .cons rfl, ?_⟩
  · intro rest
    rw [List.append_assoc]
    exact hgives.head_not_blank (.inr ⟨name, hc⟩) _
  · intro rest
    have hparams : trim (textOf cs) = trim params.toList := by
      rw [textOf_params hc hsettled htext, trim_params hsettled.2.1,
        Text.trim_eq_self_iff.2 hsettled.2.1]
    rw [List.append_assoc, List.singleton_append, readFrom_keyword hsettled.1 hc hinner, readFrom,
      readStep, hchildren, ofAtRule_trim name hparams]
    rfl

/-- A legible statement is read as that statement. -/
theorem readsAs_statement {style : Style} {nested : Bool} {name params : String}
    (hlegible : endsItem nested (isKeyword name) (headText style (atHead name params)) = true)
    (hsettled : AtSettled style name params) :
    ReadsAs nested (headText style (atHead name params) ++ [';']) (.statement name params) := by
  obtain ⟨c, cs, hgives, htext, hc, hinner⟩ :=
    Component.gives_of_isHead rfl Component.tokens_of_isSemicolon hlegible
  refine ⟨?_, _, hgives.append (Component.gives_semicolon nested) fun rest _ => .cons rfl, ?_⟩
  · intro rest
    rw [List.append_assoc]
    exact hgives.head_not_blank (.inr ⟨name, hc⟩) _
  · intro rest
    have hparams : trim (textOf cs) = params.toList := by
      have hgap := trim_params hsettled.2.1 .minified
      rw [gapBeforeBlock, List.append_nil] at hgap
      rw [← List.append_nil (headText style (atHead name params))] at htext
      rw [textOf_params hc hsettled htext, List.append_nil, hgap]
    rw [List.append_assoc, List.singleton_append, readFrom_keyword hsettled.1 hc hinner, readFrom,
      readStep, readToken]
    · rw [Pending.finish, hparams, String.ofList_toList]
      rfl
    all_goals simp [Token.semicolon]

/-- A legible declaration is read as the declaration that its text writes. -/
theorem readFrom_declaration {nested : Bool} {d : Declaration} {c : Component}
    {cs : List Component} (hc : startsItem c = true)
    (hinner : ∀ e ∈ c :: cs, isInner nested e = true)
    (hd : Declaration.ofText? (textOf (c :: cs)) = some d) :
    readFrom (.between []) (c :: cs) = [.declaration d] ∧
      ∀ rest, readFrom (.between []) (c :: cs ++ (.token Token.semicolon :: rest)) =
        .declaration d :: readFrom (.between []) rest := by
  constructor
  · have hread := readFrom_item hc hinner []
    rw [List.append_nil] at hread
    rw [hread, readFrom, Pending.finish, hd]
    rfl
  · intro rest
    rw [readFrom_item hc hinner, readFrom, readStep, readToken]
    · rw [Pending.finish, hd]
      rfl
    all_goals simp [Token.semicolon]

theorem readsAs_declaration {style : Style} {nested : Bool} {d : Declaration}
    (hlegible : endsItem nested startsItem (declarationText style d) = true)
    (hd : Declaration.ofText? (declarationText style d) = some d) :
    ReadsAs nested (declarationText style d ++ [';']) (.declaration d) := by
  obtain ⟨c, cs, hgives, htext, hc, hinner⟩ :=
    Component.gives_of_isHead rfl Component.tokens_of_isSemicolon hlegible
  rw [← htext] at hd
  refine ⟨?_, _, hgives.append (Component.gives_semicolon nested) fun rest _ => .cons rfl, ?_⟩
  · intro rest
    rw [List.append_assoc]
    exact hgives.head_not_blank (.inl hc) _
  · intro rest
    rw [List.append_assoc, List.singleton_append]
    exact (readFrom_declaration hc hinner hd).2 rest

theorem readsAs_comment (nested : Bool) {text : String}
    (h : Text.occurs ['*', '/'] text.toList = false) :
    ReadsAs nested (['/', '*'] ++ text.toList ++ ['*', '/']) (.comment text) := by
  refine ⟨fun rest => rfl, _, Component.gives_comment nested h, ?_⟩
  intro rest
  rw [List.singleton_append, readFrom, readStep, readToken.eq_def]
  simp

/-! ## Lists of nodes -/

/-- A node as a style writes it, with the semicolon that it may owe to the next node. -/
def closedText (style : Style) (depth : Nat) (n : Node) : List Char :=
  renderAt style depth n ++
    match style, n with
    | .minified, .declaration _ => [';']
    | _, _ => []

theorem closedText_eq_renderAt (style : Style) (depth : Nat) {n : Node} (h : n.declaration? = none) :
    closedText style depth n = renderAt style depth n := by
  cases n with
  | declaration d => cases h
  | rule | layer | media | atRule | statement | comment => cases style <;> exact List.append_nil _

/-- What stands between the brackets of a block. -/
def insideText (style : Style) (depth : Nat) (children : List Node) : List Char :=
  match style with
  | .pretty =>
      if children.isEmpty then []
      else '\n' :: renderList .pretty (depth + 1) children ++ '\n' :: List.replicate depth '\t'
  | .minified => renderList .minified (depth + 1) children

theorem blockText_eq (style : Style) (depth : Nat) (head : List Char) (children : List Node) :
    blockText style depth head children.isEmpty (renderList style (depth + 1) children) =
      headText style head ++ gapBeforeBlock style ++
        ('\x7b' :: insideText style depth children ++ ['\x7d']) := by
  cases style with
  | minified => simp [blockText, headText, gapBeforeBlock, insideText]
  | pretty =>
      rw [blockText, headText, gapBeforeBlock, insideText]
      split <;> simp

theorem isBlank_indentation (style : Style) (depth : Nat) :
    ∀ c ∈ indentation style depth, Token.isBlank c = true := by
  intro c hc
  cases style with
  | minified => exact absurd hc (by simp [indentation])
  | pretty =>
      rw [List.eq_of_mem_replicate hc]
      rfl

/-- Blanks between two items mean nothing. -/
theorem readFrom_blanks (b : List Char) (rest : List Component) :
    readFrom (.between []) (blanks b ++ rest) = readFrom (.between []) rest := by
  rw [blanks]
  split
  · rfl
  · rw [List.singleton_append, readFrom, readStep, readToken.eq_def]
    rfl

/-- A node that is read, with blanks before it. -/
theorem ReadsAs.afterBlanks {nested : Bool} {text : List Char} {n : Node}
    (h : ReadsAs nested text n) {b : List Char} (hb : ∀ c ∈ b, Token.isBlank c = true) :
    ∃ cs, Gives nested (b ++ text) (fun _ => True) cs ∧
      ∀ rest, readFrom (.between []) (cs ++ rest) = n :: readFrom (.between []) rest := by
  obtain ⟨hvisible, cs, hgives, hread⟩ := h
  refine ⟨blanks b ++ cs,
    (Component.gives_blanks nested hb).append hgives fun rest _ => hvisible rest, ?_⟩
  intro rest
  rw [List.append_assoc, readFrom_blanks, hread]

theorem blockReads_nil : BlockReads [] [] :=
  ⟨[], fun _ => True, Component.gives_nil true _, fun _ => trivial, rfl⟩

/-- The contents of a block, given that its nodes are read after blanks. -/
theorem blockReads_insideText {style : Style} (depth : Nat) {children : List Node}
    (h : children ≠ [] → ∀ {b : List Char}, (∀ c ∈ b, Token.isBlank c = true) →
      AreRead style true (b ++ renderList style (depth + 1) children) children) :
    BlockReads (insideText style depth children) children := by
  by_cases hne : children = []
  · subst hne
    cases style with
    | pretty => exact blockReads_nil
    | minified =>
        rw [insideText, renderList]
        exact blockReads_nil
  cases style with
  | minified =>
      obtain ⟨cs, hgives, hread⟩ := h hne (b := []) (by simp)
      refine ⟨cs, _, hgives, fun rest _ => .cons rfl, ?_⟩
      have hall := hread [] fun _ => rfl
      rwa [List.append_nil, readFrom, Pending.finish, List.append_nil] at hall
  | pretty =>
      obtain ⟨cs, hgives, hread⟩ := h hne (b := ['\n']) (by simp [Token.isBlank, Token.isNewline])
      have hblank : ∀ c ∈ '\n' :: List.replicate depth '\t', Token.isBlank c = true := by
        intro c hc
        rcases List.mem_cons.1 hc with rfl | hc
        · rfl
        · rw [List.eq_of_mem_replicate hc]
          rfl
      have hinside : insideText .pretty depth children =
          ['\n'] ++ renderList .pretty (depth + 1) children ++
            '\n' :: List.replicate depth '\t' := by
        rw [insideText, if_neg (by simpa using hne)]
        simp
      rw [hinside]
      refine ⟨cs ++ blanks ('\n' :: List.replicate depth '\t'), _,
        hgives.append (Component.gives_blanks true hblank) ?_, fun rest => rfl, ?_⟩
      · intro rest _ hstyle
        cases hstyle
      · rw [hread _ (fun hstyle => absurd hstyle (by decide)), ← List.append_nil (blanks _),
          readFrom_blanks, readFrom, Pending.finish, List.append_nil]

/-- The text of a list is the closed text of its first node, and then the others after a gap. -/
theorem renderList_cons (style : Style) (depth : Nat) (n : Node) {ns : List Node} (hns : ns ≠ []) :
    ∃ gap, (∀ c ∈ gap, Token.isBlank c = true) ∧
      renderList style depth (n :: ns) =
        indentation style depth ++ closedText style depth n ++ (gap ++ renderList style depth ns) := by
  have hempty : ns.isEmpty = false := by simpa using hns
  cases style with
  | pretty =>
      refine ⟨['\n'], by simp [Token.isBlank, Token.isNewline], ?_⟩
      simp [renderList, hempty, separator, closedText]
  | minified =>
      refine ⟨[], by simp, ?_⟩
      cases n <;> simp [renderList, hempty, separator, closedText]

theorem isBlank_append {a b : List Char} (ha : ∀ c ∈ a, Token.isBlank c = true)
    (hb : ∀ c ∈ b, Token.isBlank c = true) : ∀ c ∈ a ++ b, Token.isBlank c = true := by
  intro c hc
  rcases List.mem_append.1 hc with hc | hc
  · exact ha c hc
  · exact hb c hc

/-- The last node of a list.  In a minified block it may be a declaration without its semicolon. -/
theorem areRead_last {style : Style} {nested : Bool} {depth : Nat} {n : Node}
    (hsettled : Settled style n) (hlegible : legible style nested n = true)
    (h : ReadsAs nested (closedText style depth n) n) {b : List Char}
    (hb : ∀ c ∈ b, Token.isBlank c = true) :
    AreRead style nested (b ++ renderList style depth [n]) [n] := by
  have hblank := isBlank_append hb (isBlank_indentation style depth)
  have htext : b ++ renderList style depth [n] =
      (b ++ indentation style depth) ++ renderAt style depth n := by
    simp [renderList]
  rw [htext]
  by_cases hclosed : closedText style depth n = renderAt style depth n
  · rw [hclosed] at h
    obtain ⟨cs, hgives, hread⟩ := h.afterBlanks hblank
    exact ⟨cs, ⟨hgives.1, fun rest _ => hgives.2 rest trivial⟩, fun rest _ => hread rest⟩
  · obtain ⟨rfl, d, rfl⟩ : style = .minified ∧ ∃ d, n = .declaration d := by
      cases style with
      | pretty => exact absurd (by simp [closedText]) hclosed
      | minified =>
          cases n with
          | declaration d => exact ⟨rfl, d, rfl⟩
          | _ => exact absurd (by simp [closedText]) hclosed
    rw [Settled] at hsettled
    rw [legible] at hlegible
    obtain ⟨c, cs, hgives, hhead, hc, hinner⟩ :=
      Component.gives_of_isHead rfl Component.tokens_of_isSemicolon hlegible
    rw [← hhead] at hsettled
    have hrender : renderAt .minified depth (.declaration d) = declarationText .minified d := by
      simp [renderAt]
    rw [hrender]
    refine ⟨blanks (b ++ indentation .minified depth) ++ (c :: cs), ?_, ?_⟩
    · refine (Component.gives_blanks nested hblank).append
        ⟨hgives.1, fun rest hrest => hgives.2 rest (hrest rfl)⟩ ?_
      exact fun rest _ => hgives.head_not_blank (.inl hc) rest
    · intro rest hrest
      rw [hrest rfl, List.append_nil, readFrom_blanks, (readFrom_declaration hc hinner hsettled).1,
        readFrom, Pending.finish, List.append_nil]

theorem ofAtRule_layer {name : Option String} (hname : name ≠ some "")
    (htrimmed : Trimmed (name.getD "").toList) (children : List Node) :
    ofAtRule "layer" (name.getD "").toList children = .layer name children := by
  rw [ofAtRule, Text.trim_eq_self_iff.2 htrimmed, String.ofList_toList]
  cases name with
  | none => rfl
  | some name =>
      have hne : name.isEmpty = false := by
        rw [← Bool.not_eq_true, String.isEmpty_iff]
        intro hnil
        exact hname (by rw [hnil])
      simp [hne]

theorem ofAtRule_media {condition : String} (htrimmed : Trimmed condition.toList)
    (children : List Node) :
    ofAtRule "media" condition.toList children = .media condition children := by
  rw [ofAtRule, Text.trim_eq_self_iff.2 htrimmed, String.ofList_toList]

theorem ofAtRule_other {name params : String} (hlayer : name ≠ "layer") (hmedia : name ≠ "media")
    (htrimmed : Trimmed params.toList) (children : List Node) :
    ofAtRule name params.toList children = .atRule name params children := by
  rw [ofAtRule, Text.trim_eq_self_iff.2 htrimmed, String.ofList_toList]
  · exact hlayer
  · exact hmedia

mutual

/-- A node of a settled and legible tree is read back. -/
theorem readsAs_closedText {style : Style} {nested : Bool} (depth : Nat) : (n : Node) →
    Settled style n → legible style nested n = true → ReadsAs nested (closedText style depth n) n
  | .rule selector children, hs, hl => by
      rw [Settled] at hs
      rw [legible, Bool.and_eq_true] at hl
      have hblock := blockReads_insideText depth fun hne _ hb =>
        areRead_renderList (depth + 1) children hne hs.2.2 hl.2 hb
      rw [closedText_eq_renderAt style depth rfl, renderAt, blockText_eq]
      exact readsAs_rule hl.1 hs.1 hs.2.1 hblock
  | .layer name children, hs, hl => by
      rw [Settled] at hs
      rw [legible, Bool.and_eq_true] at hl
      have hblock := blockReads_insideText depth fun hne _ hb =>
        areRead_renderList (depth + 1) children hne hs.2.2 hl.2 hb
      rw [closedText_eq_renderAt style depth rfl, renderAt, blockText_eq,
        ← ofAtRule_layer hs.1 hs.2.1.2.1 children]
      exact readsAs_atRule hl.1 hs.2.1 hblock
  | .media condition children, hs, hl => by
      rw [Settled] at hs
      rw [legible, Bool.and_eq_true] at hl
      have hblock := blockReads_insideText depth fun hne _ hb =>
        areRead_renderList (depth + 1) children hne hs.2 hl.2 hb
      rw [closedText_eq_renderAt style depth rfl, renderAt, blockText_eq,
        ← ofAtRule_media hs.1.2.1 children]
      exact readsAs_atRule hl.1 hs.1 hblock
  | .atRule name params children, hs, hl => by
      rw [Settled] at hs
      rw [legible, Bool.and_eq_true] at hl
      have hblock := blockReads_insideText depth fun hne _ hb =>
        areRead_renderList (depth + 1) children hne hs.2.2.2 hl.2 hb
      rw [closedText_eq_renderAt style depth rfl, renderAt, blockText_eq,
        ← ofAtRule_other hs.1 hs.2.1 hs.2.2.1.2.1 children]
      exact readsAs_atRule hl.1 hs.2.2.1 hblock
  | .declaration d, hs, hl => by
      rw [Settled] at hs
      rw [legible] at hl
      have htext : closedText style depth (.declaration d) = declarationText style d ++ [';'] := by
        cases style <;> simp [closedText, renderAt]
      rw [htext]
      exact readsAs_declaration hl hs
  | .statement name params, hs, hl => by
      rw [Settled] at hs
      rw [legible] at hl
      rw [closedText_eq_renderAt style depth rfl, renderAt]
      exact readsAs_statement hl hs
  | .comment text, hs, _ => by
      rw [Settled] at hs
      rw [closedText_eq_renderAt style depth rfl, renderAt]
      exact readsAs_comment nested hs
termination_by structural n => n

/-- A list of settled and legible nodes is read back, with blanks before it. -/
theorem areRead_renderList {style : Style} {nested : Bool} (depth : Nat) : (ns : List Node) →
    ns ≠ [] → SettledAll style ns → legibleAll style nested ns = true → {b : List Char} →
    (∀ c ∈ b, Token.isBlank c = true) → AreRead style nested (b ++ renderList style depth ns) ns
  | [], hne, _, _, _, _ => absurd rfl hne
  | n :: ns, _, hs, hl, b, hb => by
      rw [SettledAll] at hs
      rw [legibleAll, Bool.and_eq_true] at hl
      have hn := readsAs_closedText depth n hs.1 hl.1
      by_cases hne : ns = []
      · subst hne
        exact areRead_last hs.1 hl.1 hn hb
      · obtain ⟨gap, hgap, htext⟩ := renderList_cons style depth n hne
        obtain ⟨cs, hgives, hread⟩ :=
          hn.afterBlanks (isBlank_append hb (isBlank_indentation style depth))
        obtain ⟨ds, hgives', hread'⟩ := areRead_renderList depth ns hne hs.2 hl.2 hgap
        refine ⟨cs ++ ds, ?_, ?_⟩
        · have hall := hgives.append hgives' fun _ _ => trivial
          rw [htext]
          simpa using hall
        · intro rest hrest
          rw [List.append_assoc, hread, hread' rest hrest, List.cons_append]
termination_by structural ns => ns

end

end Stylesheet.Node

namespace Stylesheet

/-- A stylesheet with settled texts and legible heads is read back from its own text. -/
theorem Document.ofText_render {style : Style} {document : Document}
    (hsettled : Node.SettledAll style document.nodes)
    (hlegible : Node.legibleAll style false document.nodes = true) :
    Document.ofText (document.render style) = document := by
  obtain ⟨nodes⟩ := document
  rw [Document.ofText, Document.render, String.toList_ofList]
  congr 1
  by_cases hne : nodes = []
  · subst hne
    rw [Node.renderList]
    rfl
  · obtain ⟨cs, hgives, hread⟩ :=
      Node.areRead_renderList 0 nodes hne hsettled hlegible (b := []) (by simp)
    have htokens := hgives.2 [] fun _ => .nil
    have hnodes := hread [] fun _ => rfl
    rw [List.nil_append, List.append_nil, Token.tokenize_nil, List.append_nil] at htokens
    rw [List.append_nil, Node.readFrom, Node.Pending.finish, List.append_nil] at hnodes
    rw [htokens, Component.group_tokensOf hgives.1, Node.read, hnodes]

end Stylesheet
