/-!
# Tokens

A stylesheet is read as a sequence of tokens.  Each token keeps its *text*, the exact characters
it was cut from, so a sequence of tokens can always be put back together: the tree built from it
holds slices of the source and nothing decoded.  The one exception is the name of an at-rule,
which is compared after its escapes are resolved and so is kept in the token as well.

The kinds below are those that decide something later.  Brackets open and close blocks, a
semicolon and a block end an item, at-keywords and comments start one.  All other tokens
(identifiers, numbers, strings, …) are ordinary: they only contribute their text.  Whether a
string, a comment or a url was closed, and whether it was malformed, is recorded, since a text that
ends inside a token cannot be continued safely.
-/

namespace Stylesheet

/-- The three kinds of brackets. -/
inductive Bracket where
  /-- `(` and `)`; a function name with its `(` opens one too. -/
  | paren
  /-- `[` and `]`. -/
  | square
  /-- `{` and `}`. -/
  | curly
deriving DecidableEq, Repr

/-- The closing character of a bracket. -/
def Bracket.closing : Bracket → Char
  | .paren => ')'
  | .square => ']'
  | .curly => '}'

namespace Token

/-- What a token is. -/
inductive Kind where
  /-- A run of blanks. -/
  | blank
  /-- A comment with the text between its marks, and whether it was closed. -/
  | comment (body : List Char) (closed : Bool)
  /-- A quoted string, and whether it was closed. -/
  | string (closed : Bool)
  /-- A quoted string cut off by the end of its line. -/
  | badString
  /-- An unquoted `url(…)`, and whether it was closed. -/
  | url (closed : Bool)
  /-- An unquoted `url(…)` with a character that it may not hold. -/
  | badUrl
  /-- An identifier. -/
  | ident
  /-- A number with its unit or percent sign. -/
  | number
  /-- A `#` with a name. -/
  | hash
  /-- An `@` with a name, given with its escapes resolved. -/
  | atKeyword (name : List Char)
  /-- A semicolon. -/
  | semicolon
  /-- The mark `<!--` or `-->`, which a stylesheet ignores between its items. -/
  | legacyMark
  /-- An opening bracket, or a function name with its opening parenthesis. -/
  | opening (bracket : Bracket)
  /-- A closing bracket. -/
  | closing (bracket : Bracket)
  /-- Any other single character. -/
  | delim
deriving DecidableEq, Repr

end Token

/-- A token: its kind and the characters it was cut from. -/
structure Token where
  /-- What the token is. -/
  kind : Token.Kind
  /-- The exact characters of the token. -/
  text : List Char
deriving DecidableEq, Repr

namespace Token

/-- The characters of a sequence of tokens. -/
def textOf (tokens : List Token) : List Char := tokens.flatMap Token.text

@[simp] theorem textOf_nil : textOf [] = [] := rfl

@[simp] theorem textOf_cons (t : Token) (ts : List Token) :
    textOf (t :: ts) = t.text ++ textOf ts := rfl

theorem textOf_append (a b : List Token) : textOf (a ++ b) = textOf a ++ textOf b := by
  simp [textOf]

end Token

end Stylesheet
