import Stylesheet.Node

/-!
# Writing a stylesheet

`Document.render` writes a stylesheet in one of two styles.

* *Pretty*: every node on a line of its own, indented by one tab per level.  A declaration ends
  with a semicolon, and a block without nodes is written `{}` behind its head.
* *Minified*: no optional spaces.  A semicolon stands only between a declaration and the node after
  it, and heads go through `minifyPrelude`.

A statement always ends with a semicolon.  `minifyPrelude` shortens each run of spaces outside
quotes to one space, and to nothing after a comma.  It copies quoted text and the character after a
backslash as they are.
-/

namespace Stylesheet

open Stylesheet.Text (trim isSpace)

/-- How a stylesheet is written. -/
inductive Style where
  /-- One node per line, indented. -/
  | pretty
  /-- No optional spaces. -/
  | minified
deriving DecidableEq, Repr

/-! ## Preludes -/

/-- Where `minifyPrelude` is in the text. -/
structure PreludeState where
  /-- The quote that is open, if any. -/
  quote : Option Char := none
  /-- Did a backslash come just before? -/
  escaped : Bool := false
  /-- Have spaces been held back? -/
  pending : Bool := false
  /-- Was the last character written a comma? -/
  afterComma : Bool := false

/-- The quote that is open after a character that is not escaped. -/
def quoteAfter (c : Char) : Option Char → Option Char
  | none => if c == '"' || c == '\'' then some c else none
  | some q => if c == q then none else some q

/-- Shorten the spaces of a prelude, from some place in it on. -/
def minifyFrom (s : PreludeState) : List Char → List Char
  | [] => []
  | c :: cs =>
      if s.escaped then
        c :: minifyFrom { s with escaped := false, afterComma := c == ',' } cs
      else if s.quote.isNone && isSpace c then minifyFrom { s with pending := true } cs
      else
        let next : PreludeState :=
          { quote := if c == '\\' then s.quote else quoteAfter c s.quote
            escaped := c == '\\'
            afterComma := c == ',' }
        if s.pending && !s.afterComma then ' ' :: c :: minifyFrom next cs
        else c :: minifyFrom next cs

/-- The prelude with its runs of spaces shortened. -/
def minifyPrelude (text : List Char) : List Char := minifyFrom {} (trim text)

/-! ## Nodes -/

namespace Node

/-- A declaration without the semicolon after it. -/
def declarationText (style : Style) (d : Declaration) : List Char :=
  match style with
  | .pretty =>
      d.property.toList ++ [':', ' '] ++ d.value.toList ++
        (if d.important then " !important".toList else [])
  | .minified =>
      d.property.toList ++ [':'] ++ d.value.toList ++
        (if d.important then "!important".toList else [])

/-- An at-keyword with its parameters. -/
def atHead (name params : String) : List Char :=
  '@' :: name.toList ++ (if params.isEmpty then [] else ' ' :: params.toList)

/-- A head as a style writes it. -/
def headText (style : Style) (head : List Char) : List Char :=
  match style with
  | .pretty => head
  | .minified => minifyPrelude head

/-- A head with its block, whose contents are already written. -/
def blockText (style : Style) (depth : Nat) (head : List Char) (isEmpty : Bool)
    (contents : List Char) : List Char :=
  match style with
  | .pretty =>
      if isEmpty then head ++ [' ', '\x7b', '\x7d']
      else head ++ [' ', '\x7b', '\n'] ++ contents ++ '\n' :: List.replicate depth '\t' ++ ['\x7d']
  | .minified => headText style head ++ '\x7b' :: contents ++ ['\x7d']

/-- What a style writes before a node. -/
def indentation (style : Style) (depth : Nat) : List Char :=
  match style with
  | .pretty => List.replicate depth '\t'
  | .minified => []

/-- What a style writes between a node and the next one. -/
def separator (style : Style) (node : Node) : List Char :=
  match style, node with
  | .pretty, _ => ['\n']
  | .minified, .declaration _ => [';']
  | .minified, _ => []

mutual

/-- A node as a style writes it at a depth. -/
def renderAt (style : Style) (depth : Nat) : Node → List Char
  | .declaration d =>
      declarationText style d ++ (match style with | .pretty => [';'] | .minified => [])
  | .comment text => ['/', '*'] ++ text.toList ++ ['*', '/']
  | .rule selector children =>
      blockText style depth selector.toList children.isEmpty (renderList style (depth + 1) children)
  | .layer name children =>
      blockText style depth (atHead "layer" (name.getD "")) children.isEmpty
        (renderList style (depth + 1) children)
  | .media condition children =>
      blockText style depth (atHead "media" condition) children.isEmpty
        (renderList style (depth + 1) children)
  | .atRule name params children =>
      blockText style depth (atHead name params) children.isEmpty
        (renderList style (depth + 1) children)
  | .statement name params => headText style (atHead name params) ++ [';']
termination_by structural node => node

/-- A list of nodes as a style writes it at a depth. -/
def renderList (style : Style) (depth : Nat) : List Node → List Char
  | [] => []
  | n :: ns =>
      indentation style depth ++ renderAt style depth n ++
        (if ns.isEmpty then [] else separator style n) ++ renderList style depth ns
termination_by structural nodes => nodes

end

end Node

/-- The text of a stylesheet. -/
def Document.render (style : Style) (document : Document) : String :=
  .ofList (Node.renderList style 0 document.nodes)

/-! ## Examples -/

example : minifyPrelude "a  >  b ,\n c[x='1,  2']".toList = "a > b ,c[x='1,  2']".toList := by
  decide

example :
    (Document.mk [.rule "a" [.declaration ⟨"b", "c", true⟩], .statement "x" ""]).render .pretty =
      "a \x7b\n\tb: c !important;\n\x7d\n@x;" := by decide +kernel

example :
    (Document.mk [.rule "a" [.declaration ⟨"b", "c", true⟩], .statement "x" ""]).render .minified =
      "a\x7bb:c!important\x7d@x;" := by decide +kernel

end Stylesheet
