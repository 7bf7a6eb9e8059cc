import Stylesheet.Pattern.CharSet

/-!
# Patterns

A pattern is a regular expression with anchors.  `Pattern.occursIn` says whether it matches
somewhere in a text.

Matching goes through the pattern once with a *set of places* in the text: `Pattern.advance` takes
the places where a part of the pattern may start to the places where it may end.  Only whether there
is a match is asked, so it does not matter which of several matches comes first, and greedy and
reluctant repetitions are alike.  A place is a character before it and the text after it, with its
number, by which places of one text are told apart.  Sets of places are lists in the order of these
numbers, without repetitions.

A repetition never goes back in the text.  So after as many rounds as the text has places, each
further round either changes nothing or has nowhere to start: a repetition that goes on for more
rounds has passed a place where its part matches the empty text, and there it can take one round
more or less.  No repetition goes on for longer than that, whatever its counts.
-/

namespace Stylesheet

/-- A condition on a place in a text.  With `unicode`, words are made of all word characters, and
else of the ASCII ones. -/
inductive Anchor where
  /-- The start of the text. -/
  | textStart
  /-- The end of the text. -/
  | textEnd
  /-- The start of a line; with `carriage`, a carriage return ends a line too. -/
  | lineStart (carriage : Bool)
  /-- The end of a line; with `carriage`, a carriage return ends a line too. -/
  | lineEnd (carriage : Bool)
  /-- A boundary of a word. -/
  | boundary (unicode : Bool)
  /-- No boundary of a word. -/
  | notBoundary (unicode : Bool)
  /-- The start of a word. -/
  | wordStart (unicode : Bool)
  /-- The end of a word. -/
  | wordEnd (unicode : Bool)
  /-- No word character before. -/
  | noWordBefore (unicode : Bool)
  /-- No word character after. -/
  | noWordAfter (unicode : Bool)
deriving Repr, DecidableEq

/-- A regular expression with anchors. -/
inductive Pattern where
  /-- The empty text. -/
  | empty
  /-- A text. -/
  | literal (text : List Char)
  /-- One character of a set. -/
  | char (set : CharSet)
  /-- The empty text at a place with a condition. -/
  | anchor (a : Anchor)
  /-- A pattern repeated at least `min` and at most `max` times; if `reluctant`, as few times as
  will do. -/
  | rep (a : Pattern) (min : Nat) (max : Option Nat) (reluctant : Bool)
  /-- A group that captures, with its number. -/
  | group (number : Nat) (a : Pattern)
  /-- Patterns one after the other. -/
  | seq (parts : List Pattern)
  /-- One of several patterns. -/
  | alt (branches : List Pattern)

namespace Pattern

/-! ## Places -/

/-- A place in a text. -/
structure Place where
  /-- The number of characters before the place. -/
  index : Nat
  /-- The character before the place. -/
  before : Option Char
  /-- The text after the place. -/
  rest : List Char

/-- All places of a text from a place on. -/
def placesFrom (index : Nat) (before : Option Char) : List Char → List Place
  | [] => [⟨index, before, []⟩]
  | c :: cs => ⟨index, before, c :: cs⟩ :: placesFrom (index + 1) (some c) cs

/-- Are two places of one text the same? -/
def Place.same (p q : Place) : Bool := p.index == q.index

/-- Does a place come before another one of the same text? -/
def Place.isBefore (p q : Place) : Bool := p.index < q.index

/-- The places in either set. -/
def union : List Place → List Place → List Place
  | [], others => others
  | p :: places, others =>
      let after := others.dropWhile fun q => q.isBefore p
      others.takeWhile (fun q => q.isBefore p) ++ p :: union places (after.dropWhile p.same)

/-- The places in the first set and not in the second one. -/
def without : List Place → List Place → List Place
  | [], _ => []
  | p :: places, others =>
      let others := others.dropWhile fun q => q.isBefore p
      if others.head?.any p.same then without places others else p :: without places others

/-- Does a character make words? -/
def makesWords (unicode : Bool) (c : Char) : Bool :=
  if unicode then Unicode.isWord c else c.isAlphanum || c == '_'

/-- Is there a character that makes words before a place? -/
def Place.wordBefore (unicode : Bool) (p : Place) : Bool := p.before.any (makesWords unicode)

/-- Is there a character that makes words after a place? -/
def Place.wordAfter (unicode : Bool) (p : Place) : Bool := p.rest.head?.any (makesWords unicode)

/-- Does a place meet a condition? -/
def Place.meets (p : Place) : Anchor → Bool
  | .textStart => p.before.isNone
  | .textEnd => p.rest.isEmpty
  | .lineStart false => p.before.all (· == '\n')
  | .lineStart true =>
      p.before.all fun c => c == '\n' || (c == '\r' && p.rest.head? != some '\n')
  | .lineEnd false => p.rest.head?.all (· == '\n')
  | .lineEnd true =>
      p.rest.head?.all fun c => c == '\r' || (c == '\n' && p.before != some '\r')
  | .boundary unicode => p.wordBefore unicode != p.wordAfter unicode
  | .notBoundary unicode => p.wordBefore unicode == p.wordAfter unicode
  | .wordStart unicode => !p.wordBefore unicode && p.wordAfter unicode
  | .wordEnd unicode => p.wordBefore unicode && !p.wordAfter unicode
  | .noWordBefore unicode => !p.wordBefore unicode
  | .noWordAfter unicode => !p.wordAfter unicode

/-- The place after a character of a class, if there is one here. -/
def Place.after? (holds : Char → Bool) (p : Place) : Option Place :=
  match p.rest with
  | c :: cs => if holds c then some ⟨p.index + 1, some c, cs⟩ else none
  | [] => none

/-! ## Matching -/

/-- Repeat a step exactly `n` times. -/
def times (step : List Place → List Place) : Nat → List Place → List Place
  | 0, places => places
  | n + 1, places => if places.isEmpty then [] else times step n (step places)

/-- Repeat a step at most `n` times.  `reached` are the places reached so far, and `recent` those
of them that the last round added. -/
def upTo (step : List Place → List Place) : Nat → (reached recent : List Place) → List Place
  | 0, reached, _ => reached
  | n + 1, reached, recent =>
      let fresh := without (step recent) reached
      if fresh.isEmpty then reached else upTo step n (union fresh reached) fresh

/-- The places after a text that starts at one of the given places. -/
def advanceText (places : List Place) (text : List Char) : List Place :=
  text.foldl (fun places c => places.filterMap (Place.after? (· == c))) places

mutual

/-- The places where a pattern may end that starts at one of the given places.  No text has more
than `bound` places. -/
def advance (bound : Nat) : Pattern → List Place → List Place
  | .empty, places => places
  | .literal text, places => advanceText places text
  | .char set, places => places.filterMap (Place.after? set.holds)
  | .anchor a, places => places.filter fun p => p.meets a
  | .rep a min max _, places =>
      let start := times (advance bound a) (Nat.min min bound) places
      upTo (advance bound a) (max.elim bound (· - min)) start start
  | .group _ a, places => advance bound a places
  | .seq parts, places => advanceAll bound parts places
  | .alt branches, places => advanceAny bound branches places

/-- The places after patterns one after the other. -/
def advanceAll (bound : Nat) : List Pattern → List Place → List Place
  | [], places => places
  | a :: rest, places => advanceAll bound rest (advance bound a places)

/-- The places after one of several patterns. -/
def advanceAny (bound : Nat) : List Pattern → List Place → List Place
  | [], _ => []
  | a :: rest, places => union (advance bound a places) (advanceAny bound rest places)

end

/-- Does the pattern match somewhere in a text? -/
def occursIn (pattern : Pattern) (text : String) : Bool :=
  let places := placesFrom 0 none text.toList
  !(pattern.advance places.length places).isEmpty

end Pattern

end Stylesheet
