import Stylesheet.Pattern.Reader

/-!
# Allow-lists

An allow-list says which tags, ids, classes and other selector tokens are in use.  A token is given
in the form that `Selector.Part.token?` gives it: `name`, `#name`, `.name` or `*`.

An entry is a literal, which is the token itself, or a pattern.  Literals are kept as a set and
patterns as a list.  Some literals are always there.

An allow-list asks nothing of a pattern but which tokens it matches, so a pattern is kept as this
test.  What a text means as a pattern is up to an engine (`Pattern.Engine`).  The engine of this
library is `Pattern.engine`: it reads what `Pattern.ofText?` reads, and a pattern matches the tokens
in which it occurs.
-/

namespace Stylesheet

/-! ## Engines -/

/-- What reads patterns. -/
class Pattern.Engine where
  /-- The tokens that a pattern matches, if the text can be read as one. -/
  compile? (text : String) : Option (String → Bool)

/-- The patterns of this library match the tokens in which they occur. -/
instance Pattern.engine : Pattern.Engine where
  compile? text := (Pattern.ofText? text).map Pattern.occursIn

/-! ## Entries -/

/-- An entry of an allow-list. -/
inductive Matcher where
  /-- The token itself. -/
  | literal (token : String)
  /-- A pattern, given by the tokens that it matches. -/
  | test (holds : String → Bool)

/-- The entry of a pattern, which occurs in the tokens that it matches. -/
def Matcher.pattern (p : Pattern) : Matcher := .test p.occursIn

/-- Does an entry match a token? -/
def Matcher.accepts (matcher : Matcher) (candidate : String) : Bool :=
  match matcher with
  | .literal token => token == candidate
  | .test holds => holds candidate

/-! ## Lists -/

/-- A set of literals and a list of patterns. -/
structure AllowList where
  /-- The literals without repetitions. -/
  literals : List String
  /-- The patterns in the order in which they came, each as a test of tokens. -/
  patterns : List (String → Bool)

namespace AllowList

/-- The literals of every allow-list. -/
def globals : List String := [":root", "*", "html", "body"]

/-- The allow-list that has no entries of its own. -/
def initial : AllowList := ⟨globals, []⟩

/-- Add a literal. -/
def insertLiteral (list : AllowList) (token : String) : AllowList :=
  if list.literals.contains token then list
  else { list with literals := list.literals ++ [token] }

/-- Add an entry. -/
def insert (list : AllowList) : Matcher → AllowList
  | .literal token => list.insertLiteral token
  | .test holds => { list with patterns := list.patterns ++ [holds] }

/-- Add some entries. -/
def extend (list : AllowList) (matchers : List Matcher) : AllowList := matchers.foldl insert list

/-- The allow-list with some entries. -/
def ofMatchers (matchers : List Matcher) : AllowList := initial.extend matchers

/-- Is a token in use? -/
def accepts (list : AllowList) (candidate : String) : Bool :=
  list.literals.contains candidate || list.patterns.any fun holds => holds candidate

end AllowList

end Stylesheet
