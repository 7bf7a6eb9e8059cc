import Stylesheet.Text
import Stylesheet.Unicode.Folding
import Stylesheet.Unicode.Word

/-!
# Names used in markup

Which tags, ids and classes a markup text uses.  The text is not parsed: it may be in any of several
markup languages, so only the outer form of tags and attributes is looked for.

* A *tag* is a `<`, a name of ASCII letters, digits and hyphens that starts with a letter and ends
  at a word boundary, and then anything up to the next `>`.  When the whole run of name characters
  does not end at a word boundary, the longest part of it that does is the name.
* An *attribute* is one of some names at a word boundary, in any case, then `=` and a value in
  quotes, perhaps with spaces between them.  The value is not empty and ends at the next quote of
  either kind.  Its words are the ids or classes.

The search goes from left to right and continues behind each tag or attribute that it finds.
-/

namespace Stylesheet.Markup

open Stylesheet.Text (headIs isSpace lower sortedSet words)
open Stylesheet.Unicode (isBoundary isWordAt)

/-! ## Tags -/

/-- A character of a tag name. -/
def isTagChar (c : Char) : Bool := c.isAlphanum || c == '-'

/-- The longest continuation of a tag name that ends at a word boundary, after the character
`last` of the name. -/
def continueName (last : Char) : List Char → Option (List Char)
  | [] => if isBoundary (some last) none then some [] else none
  | c :: cs =>
      match if isTagChar c then continueName c cs else none with
      | some more => some (c :: more)
      | none => if isBoundary (some last) (some c) then some [] else none

/-- The tag after a `<`: its name, and the length of all of it up to and with the `>`. -/
def tagAt? : List Char → Option (List Char × Nat)
  | [] => none
  | c :: cs =>
      if c.isAlpha then do
        let more ← continueName c cs
        let inner := (cs.drop more.length).takeWhile (· != '>')
        let length := more.length + inner.length
        if length < cs.length then some (c :: more, length + 2) else none
      else none

/-- The names of the tags of a text after its first `skip` characters. -/
def tagNamesFrom : (skip : Nat) → List Char → List (List Char)
  | _, [] => []
  | skip + 1, _ :: cs => tagNamesFrom skip cs
  | 0, c :: cs =>
      match if c == '<' then tagAt? cs else none with
      | some (name, n) => name :: tagNamesFrom n cs
      | none => tagNamesFrom 0 cs

/-- The tags of a text in lower case, sorted. -/
def tags (text : String) : List String :=
  sortedSet ((tagNamesFrom 0 text.toList).map fun name => .ofList (lower name))

/-! ## Attributes -/

/-- The text after a name in lower case letters, when the text starts with it in any case. -/
def afterName? : (name : List Char) → List Char → Option (List Char)
  | [], cs => some cs
  | _ :: _, [] => none
  | n :: name, c :: cs => if Unicode.fold c == n.toNat then afterName? name cs else none

/-- A quote of either kind. -/
def isQuote (c : Char) : Bool := c == '"' || c == '\''

/-- The value after the name of an attribute, and the text after it. -/
def valueAfter? (cs : List Char) : Option (List Char × List Char) :=
  match cs.dropWhile isSpace with
  | '=' :: rest =>
      match rest.dropWhile isSpace with
      | quote :: rest =>
          let value := rest.takeWhile fun c => !isQuote c
          if isQuote quote && !value.isEmpty && value.length < rest.length then
            some (value, rest.drop (value.length + 1))
          else none
      | [] => none
  | _ => none

/-- The value of an attribute at the start of a text, and the text after it. -/
def attributeAt? (names : List (List Char)) (cs : List Char) : Option (List Char × List Char) :=
  names.findSome? fun name => afterName? name cs >>= valueAfter?

/-- The values of the attributes with one of some names in a text after its first `skip`
characters.  `before` is the character before the text. -/
def valuesFrom (names : List (List Char)) (before : Option Char) :
    (skip : Nat) → List Char → List (List Char)
  | _, [] => []
  | skip + 1, c :: cs => valuesFrom names (some c) skip cs
  | 0, c :: cs =>
      match if isWordAt before then none else attributeAt? names (c :: cs) with
      | some (value, rest) => value :: valuesFrom names (some c) (cs.length - rest.length) cs
      | none => valuesFrom names (some c) 0 cs

/-- The words in the values of some attributes, each with a mark in front, sorted. -/
def attributeWords (names : List String) (mark : Char) (text : String) : List String :=
  sortedSet (((valuesFrom (names.map String.toList) none 0 text.toList).flatMap words).map
    fun word => .ofList (mark :: word))

/-- The ids of a text, each after a `#`, sorted. -/
def ids (text : String) : List String := attributeWords ["id"] '#' text

/-- The classes of a text, each after a `.`, sorted. -/
def classes (text : String) : List String := attributeWords ["class", "classname"] '.' text

end Stylesheet.Markup
