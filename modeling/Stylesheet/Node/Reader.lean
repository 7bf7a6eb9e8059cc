import Stylesheet.Component
import Stylesheet.Node
import Stylesheet.Token.Lexer

/-!
# Reading a stylesheet

`Document.ofText` reads a stylesheet.  It never fails: items that make no sense are dropped.

The text is cut into tokens, the tokens are nested into component values, and the component values
are read as items.  Between two items blanks, semicolons and the marks `<!--` and `-->` mean
nothing.  An item is

* a comment;
* an at-rule: an at-keyword, its parameters, and a `{}` block or a semicolon;
* a rule: a selector and a `{}` block;
* a declaration: text up to a semicolon or the end of the enclosing block.

Rules and declarations start alike.  What decides is whether a `{}` block or a semicolon comes
first; parentheses and square brackets are passed over whole.  So the reader keeps what it has
seen of the current item (`Pending`) and settles it at the block, the semicolon or the end.

A `{}` block with nothing before it is dropped.  When the next item follows its closing bracket
directly, that item's text starts right after the opening bracket of the dropped block.
-/

namespace Stylesheet

open Stylesheet.Text (trim trimEnd lower splitFirst? splitLast? sameIgnoringCase isSpace)

/-! ## Declarations -/

namespace Declaration

/-- The value of a declaration without the `!important` at its end, and whether it had one. -/
def splitImportance (text : List Char) : List Char × Bool :=
  let value := trim text
  match splitLast? '!' value with
  | some (before, after) =>
      if sameIgnoringCase (trim after) "important".toList then (trimEnd before, true)
      else (value, false)
  | none => (value, false)

/-- The property name in the case that it is known by: custom properties keep theirs. -/
def propertyName (name : List Char) : List Char :=
  if ['-', '-'].isPrefixOf name then name else lower name

/-- The declaration that a text writes.  It needs a colon, and before it a name without spaces. -/
def ofText? (text : List Char) : Option Declaration := do
  let (before, after) ← splitFirst? ':' text
  let name := trim before
  if name.isEmpty || name.any isSpace then none
  else
    let (value, important) := splitImportance after
    some ⟨.ofList (propertyName name), .ofList value, important⟩

end Declaration

namespace Node

/-! ## Items -/

/-- What has been seen of the current item. -/
inductive Pending where
  /-- Nothing yet.  `dropped` is the rest of a dropped block that ended just here, without its
  opening bracket. -/
  | between (dropped : List Char)
  /-- An at-keyword and the parameters so far. -/
  | atRule (name : String) (params : List Char)
  /-- The text so far of a rule or declaration. -/
  | item (text : List Char)

/-- Go on with an item by a text that does not end it. -/
def Pending.extend (text : List Char) : Pending → Pending
  | .between dropped => .item (dropped ++ text)
  | .atRule name params => .atRule name (params ++ text)
  | .item seen => .item (seen ++ text)

/-- The nodes that an item gives when it ends without a block. -/
def Pending.finish : Pending → List Node
  | .between _ => []
  | .atRule name params => [.statement name (.ofList (trim params))]
  | .item text => ((Declaration.ofText? text).map Node.declaration).toList

/-- The node of an at-rule with a block. -/
def ofAtRule (name : String) (params : List Char) (children : List Node) : Node :=
  let params := String.ofList (trim params)
  match name with
  | "layer" => .layer (if params.isEmpty then none else some params) children
  | "media" => .media params children
  | _ => .atRule name params children

/-- What a token adds: the nodes that end with it, and what is then seen of the next item. -/
def readToken (pending : Pending) (t : Token) : List Node × Pending :=
  match pending, t.kind with
  | .between _, .blank => ([], .between [])
  | .between _, .legacyMark => ([], .between [])
  | .between _, .comment body _ => ([.comment (.ofList body)], .between [])
  | .between _, .atKeyword name => ([], .atRule (.ofList (lower name)) [])
  | _, .semicolon => (pending.finish, .between [])
  | _, _ => ([], pending.extend t.text)

mutual

/-- What a component value adds: the nodes that end with it, and what is then seen of the next
item. -/
def readStep (pending : Pending) : Component → List Node × Pending
  | .token t => readToken pending t
  | .block bracket opener body closer =>
      let tail := Component.textOf body ++ closer.elim [] Token.text
      match bracket, pending with
      | .curly, .between _ => ([], .between tail)
      | .curly, .atRule name params =>
          ([ofAtRule name params (readFrom (.between []) body)], .between [])
      | .curly, .item text =>
          ([.rule (.ofList (trim text)) (readFrom (.between []) body)], .between [])
      | _, _ => ([], pending.extend (opener.text ++ tail))
termination_by structural component => component

/-- The nodes that a sequence of component values writes, when part of the first item has been
seen already. -/
def readFrom (pending : Pending) : List Component → List Node
  | [] => pending.finish
  | c :: cs =>
      let step := readStep pending c
      step.1 ++ readFrom step.2 cs
termination_by structural components => components

end

/-- The nodes that a sequence of component values writes. -/
def read (components : List Component) : List Node := readFrom (.between []) components

end Node

/-- The stylesheet that a text writes. -/
def Document.ofText (text : String) : Document :=
  ⟨Node.read (Component.group (Token.tokenize text.toList))⟩

/-! ## Examples -/

example : (Document.ofText "@media print \x7b A \x7b TOP: 0 ! Important \x7d \x7d").nodes =
    [.media "print" [.rule "A" [.declaration ⟨"top", "0", true⟩]]] := by decide +kernel

example : (Document.ofText "a:b;nonsense;--X:(;)").nodes =
    [.declaration ⟨"a", "b", false⟩, .declaration ⟨"--X", "(;)", false⟩] := by decide +kernel

-- The text of an item that follows a dropped block directly starts inside that block.
example : (Document.ofText "\x7bx\x7da:b").nodes = [.declaration ⟨"x\x7da", "b", false⟩] := by
  decide +kernel

end Stylesheet
