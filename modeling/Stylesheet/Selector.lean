import Stylesheet.Text

/-!
# Selectors

A selector list is a list of *branches* separated by commas.  A branch is a sequence of *parts* in
the order in which they are written: tags, ids, classes, pseudo-classes, attributes, and the
combinators between them.  Some pseudo-classes, such as `:is` and `:not`, take a selector list as
their argument, so branches nest.

The parts keep what is needed to decide whether a branch can match known markup.  Tags and the
names of pseudo-classes are in lower case, and escapes in names are resolved.  Attributes and the
arguments of other pseudo-classes stay as they are written.
-/

namespace Stylesheet.Selector

/-- How two compound selectors relate. -/
inductive Combinator where
  /-- A space: any depth below. -/
  | descendant
  /-- `>`: directly below. -/
  | child
  /-- `+`: directly after. -/
  | adjacent
  /-- `~`: somewhere after. -/
  | sibling
deriving DecidableEq, Repr

mutual

/-- A part of a branch. -/
inductive Part where
  /-- A tag, in lower case. -/
  | tag (name : String)
  /-- `#name`. -/
  | id (name : String)
  /-- `.name`. -/
  | cls (name : String)
  /-- `*`. -/
  | universal
  /-- `:name` or `:name(argument)` where the argument is not a selector list. -/
  | pseudo (name : String) (argument : Option String)
  /-- `:name(selectors)`. -/
  | functional (name : String) (branches : List Branch)
  /-- A combinator. -/
  | combinator (kind : Combinator)
  /-- `[text]`. -/
  | attribute (text : String)
  /-- `&` or `|`. -/
  | other (text : String)
deriving Repr

/-- An alternative of a selector list: its trimmed text and its parts. -/
structure Branch where
  /-- The trimmed text of the branch. -/
  text : String
  /-- The parts in the order in which they are written. -/
  parts : List Part
deriving Repr

end

/-! ## Errors -/

/-- Why a text is no selector list. -/
inductive Error where
  /-- A branch without parts. -/
  | emptyBranch
  /-- A bracket that is never closed. -/
  | unclosed (bracket : Char)
  /-- A closing bracket that nothing opened. -/
  | strayClose (bracket : Char)
  /-- A string that is never closed. -/
  | unterminatedString
  /-- A backslash at the very end. -/
  | danglingEscape
  /-- A `.`, `#` or `:` without a name after it. -/
  | missingName (mark : Char)
  /-- A combinator without anything after it. -/
  | danglingCombinator
  /-- A character that starts no part. -/
  | unexpected (c : Char)
deriving DecidableEq, Repr

/-- The wording of an error. -/
def Error.message : Error → String
  | .emptyBranch => "empty selector in list"
  | .unclosed bracket => s!"unclosed `{bracket}`"
  | .strayClose bracket => s!"unmatched `{bracket}`"
  | .unterminatedString => "unterminated string"
  | .danglingEscape => "escape at end of input"
  | .missingName mark => s!"expected identifier after `{mark}`"
  | .danglingCombinator => "combinator without a right-hand side"
  | .unexpected c => s!"unexpected character `{c}`"

/-! ## Parts of a branch -/

/-- The form under which markup knows a part: `name` for a tag, `#name`, `.name` or `*`.  Other
parts have none. -/
def Part.token? : Part → Option String
  | .tag name => some name
  | .id name => some ("#" ++ name)
  | .cls name => some ("." ++ name)
  | .universal => some "*"
  | .pseudo .. => none
  | .functional .. => none
  | .combinator _ => none
  | .attribute _ => none
  | .other _ => none

/-- Is the part a combinator? -/
def Part.isCombinator : Part → Bool
  | .combinator _ => true
  | _ => false

end Stylesheet.Selector
