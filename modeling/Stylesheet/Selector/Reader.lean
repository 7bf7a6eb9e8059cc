import Stylesheet.Selector

/-!
# Reading selectors

`Selector.readList` reads a selector list and `Selector.readBranch` a single branch.

A list is first cut into branches at the commas that stand outside brackets and quotes
(`splitBranches`); on the way the brackets are checked to be balanced, across both kinds.  Every
branch is then trimmed and read from left to right.

* Spaces between two parts that are not combinators are a descendant combinator.  Spaces around
  another combinator, and at either end, mean nothing.
* A name is made of letters, digits, `_`, `-`, non-ASCII characters and escapes.  A tag may not
  start with a digit.  An escape is a backslash with one character, or with up to six hexadecimal
  digits and one space after them.
* An attribute and the argument of a pseudo-class reach to the bracket that closes them: quoted
  text, escaped characters and pairs of the same bracket are passed over (`untilClose`).
* The argument of a pseudo-class in `listPseudos` is a selector list again, and may be blank.

A branch may start with a combinator but not end with one.  The first error from the left is
reported.

The reader of nested lists is a parameter of the reader of parts.  `readListWithin n` is the reader
that goes `n` levels deep.  Each level takes two parentheses, so the length of the text is more
than enough (`readList`).
-/

namespace Stylesheet.Selector

open Stylesheet.Text (consFirst headIs hexLength hexNumber isHexDigit isSpace lower scalar? trim)

/-! ## Names -/

/-- A character that a tag can start with; a backslash starts an escape. -/
def startsTag (c : Char) : Bool :=
  c.isAlpha || c == '_' || c == '-' || c == '\\' || 0x80 ≤ c.toNat

/-- A character that stands for itself in a name. -/
def isNameChar (c : Char) : Bool :=
  c.isAlphanum || c == '_' || c == '-' || 0x80 ≤ c.toNat

/-- Length of an escape whose backslash came just before. -/
def escapeLength : List Char → Nat
  | [] => 0
  | c :: cs =>
      if isHexDigit c then
        let digits := 1 + hexLength 5 cs
        digits + if headIs isSpace ((c :: cs).drop digits) then 1 else 0
      else 1

/-- The character that an escape stands for; its backslash came just before. -/
def escapeValue : List Char → Char
  | [] => '\uFFFD'
  | c :: cs =>
      if isHexDigit c then
        match hexNumber (c :: cs.take (hexLength 5 cs)) with
        | 0 => '\uFFFD'
        | n => (scalar? n).getD '\uFFFD'
      else c

/-- The name at the start of a text with its escapes resolved, and its length, passing over the
`skip` characters of an escape that has been resolved already. -/
def nameFrom : (skip : Nat) → List Char → Except Error (List Char × Nat)
  | _, [] => .ok ([], 0)
  | skip + 1, _ :: cs => do
      let (name, n) ← nameFrom skip cs
      return (name, n + 1)
  | 0, c :: cs =>
      if c == '\\' then
        if cs.isEmpty then .error .danglingEscape
        else do
          let (name, n) ← nameFrom (escapeLength cs) cs
          return (escapeValue cs :: name, n + 1)
      else if isNameChar c then do
        let (name, n) ← nameFrom 0 cs
        return (c :: name, n + 1)
      else .ok ([], 0)

/-- The name after a mark, which may not be missing, and its length. -/
def nameAfter (mark : Char) (cs : List Char) : Except Error (List Char × Nat) := do
  let (name, n) ← nameFrom 0 cs
  if name.isEmpty then throw (.missingName mark)
  return (name, n)

/-! ## Brackets -/

/-- The text up to the bracket that closes `opening`, without that bracket.  `depth` pairs of the
same bracket are open inside, and perhaps a quote. -/
def untilClose (opening closing : Char) (depth : Nat) (quote : Option Char) :
    List Char → Except Error (List Char)
  | [] => .error (if quote.isSome then .unterminatedString else .unclosed opening)
  | '\\' :: [] => .error .danglingEscape
  | '\\' :: d :: cs => do return '\\' :: d :: (← untilClose opening closing depth quote cs)
  | c :: cs =>
      match quote with
      | some q => do
          return c :: (← untilClose opening closing depth (if c == q then none else some q) cs)
      | none =>
          if c == '"' || c == '\'' then do
            return c :: (← untilClose opening closing depth (some c) cs)
          else if c == opening then do
            return c :: (← untilClose opening closing (depth + 1) none cs)
          else if c == closing then
            match depth with
            | 0 => .ok []
            | depth + 1 => do return c :: (← untilClose opening closing depth none cs)
          else do return c :: (← untilClose opening closing depth none cs)

/-- Cut the rest of a list into branches.  `openers` are the brackets that are open, innermost
first; perhaps a quote is open, and perhaps a backslash came just before. -/
def splitFrom (openers : List Char) (quote : Option Char) (escaped : Bool) :
    List Char → Except Error (List (List Char))
  | [] =>
      if escaped then .error .danglingEscape
      else if quote.isSome then .error .unterminatedString
      else
        match openers with
        | opener :: _ => .error (.unclosed opener)
        | [] => .ok [[]]
  | c :: cs =>
      if escaped then do return consFirst c (← splitFrom openers quote false cs)
      else if c == '\\' then do return consFirst c (← splitFrom openers quote true cs)
      else
        match quote with
        | some q => do
            return consFirst c (← splitFrom openers (if c == q then none else some q) false cs)
        | none =>
            if c == '"' || c == '\'' then do
              return consFirst c (← splitFrom openers (some c) false cs)
            else if c == '(' || c == '[' then do
              return consFirst c (← splitFrom (c :: openers) none false cs)
            else if c == ')' || c == ']' then
              match openers with
              | opener :: outer =>
                  if opener == (if c == ')' then '(' else '[') then do
                    return consFirst c (← splitFrom outer none false cs)
                  else .error (.strayClose c)
              | [] => .error (.strayClose c)
            else if c == ',' && openers.isEmpty then do
              return [] :: (← splitFrom [] none false cs)
            else do return consFirst c (← splitFrom openers none false cs)

/-- The branches of a list as they are written, with the spaces around them. -/
def splitBranches (cs : List Char) : Except Error (List (List Char)) := splitFrom [] none false cs

/-! ## Parts -/

/-- The pseudo-classes whose argument is a selector list. -/
def listPseudos : List String :=
  ["is", "not", "where", "has", "matches", "any", "-webkit-any", "-moz-any", "host",
    "host-context", "slotted", "global", "local"]

/-- A reader of nested selector lists. -/
abbrev ListReader := List Char → Except Error (List Branch)

/-- The pseudo-class after its colon, and how many characters it takes. -/
def readPseudo (nested : ListReader) (cs : List Char) : Except Error (Part × Nat) := do
  let mark := if headIs (· == ':') cs then 1 else 0
  let (written, length) ← nameAfter ':' (cs.drop mark)
  let name := String.ofList (lower written)
  let n := mark + length
  match cs.drop n with
  | '(' :: rest => do
      let argument ← untilClose '(' ')' 0 none rest
      let n := n + argument.length + 2
      if !listPseudos.contains name then
        return (.pseudo name (some (.ofList (trim argument))), n)
      else if Text.isBlank argument then return (.functional name [], n)
      else return (.functional name (← nested argument), n)
  | _ => return (.pseudo name none, n)

/-- The combinator that a character writes. -/
def combinator? : Char → Option Combinator
  | '>' => some .child
  | '+' => some .adjacent
  | '~' => some .sibling
  | _ => none

/-- The part that starts with `c`, and how many characters of the text after `c` it takes. -/
def readPart (nested : ListReader) (c : Char) (cs : List Char) : Except Error (Part × Nat) := do
  match c with
  | '*' => return (.universal, 0)
  | '.' => do
      let (name, n) ← nameAfter '.' cs
      return (.cls (.ofList name), n)
  | '#' => do
      let (name, n) ← nameAfter '#' cs
      return (.id (.ofList name), n)
  | '[' => do
      let text ← untilClose '[' ']' 0 none cs
      return (.attribute (.ofList (trim text)), text.length + 1)
  | ':' => readPseudo nested cs
  | '&' => return (.other "&", 0)
  | '|' => return (.other "|", 0)
  | ')' => throw (.strayClose ')')
  | ']' => throw (.strayClose ']')
  | _ =>
      if startsTag c then do
        let (name, n) ← nameFrom 0 (c :: cs)
        return (.tag (.ofList (lower name)), n - 1)
      else throw (.unexpected c)

/-! ## Branches -/

/-- The last part that has been read. -/
inductive Last where
  /-- None yet. -/
  | none
  /-- A combinator. -/
  | combinator
  /-- Any other part. -/
  | simple
deriving DecidableEq

/-- The parts of the rest of a branch after `skip` characters, which belong to the last part.
`spaced` says whether spaces came since then. -/
def readParts (nested : ListReader) (last : Last) (spaced : Bool) :
    (skip : Nat) → List Char → Except Error (List Part)
  | _, [] =>
      match last with
      | .none => .error .emptyBranch
      | .combinator => .error .danglingCombinator
      | .simple => .ok []
  | skip + 1, _ :: cs => readParts nested last spaced skip cs
  | 0, c :: cs =>
      if isSpace c then readParts nested last true 0 cs
      else
        match combinator? c with
        | some kind => do
            return .combinator kind :: (← readParts nested .combinator false 0 cs)
        | none => do
            let (part, n) ← readPart nested c cs
            let parts ← readParts nested .simple false n cs
            if spaced && last == .simple then return .combinator .descendant :: part :: parts
            else return part :: parts

/-- A trimmed branch with its parts. -/
def readTrimmed (nested : ListReader) (text : List Char) : Except Error Branch := do
  return ⟨.ofList text, ← readParts nested .none false 0 text⟩

/-- The branches of a list, given a reader for the lists nested in it. -/
def readListWith (nested : ListReader) (cs : List Char) : Except Error (List Branch) := do
  (← splitBranches cs).mapM fun piece => readTrimmed nested (trim piece)

/-- The branches of a list whose nested lists go at most `n` levels deep. -/
def readListWithin : (n : Nat) → ListReader
  | 0 => readListWith fun _ => .ok []
  | n + 1 => readListWith (readListWithin n)

/-- The branches of a selector list. -/
def readList (selector : String) : Except Error (List Branch) :=
  readListWithin selector.length selector.toList

/-- The parts of a single branch. -/
def readBranch (selector : String) : Except Error (List Part) :=
  readParts (readListWithin selector.length) .none false 0 selector.toList

/-! ## Examples -/

example : splitBranches "a:is(b, c), [d=',']".toList =
    .ok ["a:is(b, c)".toList, " [d=',']".toList] := rfl

example : splitBranches "a[b)".toList = .error (.strayClose ')') := rfl

-- An escape takes one space after its digits along.
example : nameFrom 0 "\\61 b.c".toList = .ok ("ab".toList, 5) := rfl

example : (readBranch "a >").isOk = false := by decide +kernel

end Stylesheet.Selector
