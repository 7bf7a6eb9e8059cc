import Stylesheet.Unicode.Folding
import Stylesheet.Unicode.Utf8
import Stylesheet.Unicode.Word

/-!
# Sets of characters

The sets that a pattern can ask a character to be in.  A set is a list of ranges of code points that
are in order, with a gap between any two: each set has one such list, so equal sets are equal.

* `union`, `inter`, `compl`, `diff` and `symmDiff` are the operations on sets.  No set needs
  surrogates, and `compl` leaves them out.
* `folded` adds the characters that are the same up to case.
* The classes with names are `decimal`, `space`, `word`, their ASCII parts, and those of
  `ofClassName?`.
-/

namespace Stylesheet

open Stylesheet.Unicode (clip? lastCode)

/-- A set of characters. -/
structure CharSet where
  /-- The ranges of code points in the set, with both ends. -/
  ranges : List (Nat × Nat)
deriving Repr, DecidableEq

namespace CharSet

/-! ## Membership -/

/-- Is a code point in one of some ranges, which are in order? -/
def isIn (n : Nat) : List (Nat × Nat) → Bool
  | [] => false
  | (first, last) :: rest => if n < first then false else n ≤ last || isIn n rest

/-- Is a character in a set? -/
def holds (set : CharSet) (c : Char) : Bool := isIn c.toNat set.ranges

/-- Is every character of the set an ASCII character? -/
def isAscii (set : CharSet) : Bool := set.ranges.all fun (_, last) => last < 0x80

/-- The character of a set that has only one. -/
def single? (set : CharSet) : Option Char :=
  match set.ranges with
  | [(first, last)] => if first == last then some (Char.ofNat first) else none
  | _ => none

/-! ## Operations -/

/-- No character. -/
def empty : CharSet := ⟨[]⟩

/-- Every character. -/
def any : CharSet := ⟨[(0, lastCode)]⟩

/-- The characters between two, with both ends. -/
def range (first last : Char) : CharSet := ⟨[(first.toNat, last.toNat)]⟩

/-- The set of one character. -/
def one (c : Char) : CharSet := range c c

/-- Add a range to ranges in order, and join it with those that it meets. -/
def insertRange (r : Nat × Nat) : List (Nat × Nat) → List (Nat × Nat)
  | [] => [r]
  | s :: rest =>
      if r.2 + 1 < s.1 then r :: s :: rest
      else if s.2 + 1 < r.1 then s :: insertRange r rest
      else insertRange (min r.1 s.1, max r.2 s.2) rest

/-- Add ranges to a set. -/
def addRanges (set : CharSet) (ranges : List (Nat × Nat)) : CharSet :=
  ⟨ranges.foldr insertRange set.ranges⟩

/-- The characters in either set. -/
def union (a b : CharSet) : CharSet := addRanges b a.ranges

/-- The characters in both sets. -/
def inter (a b : CharSet) : CharSet := ⟨a.ranges.flatMap fun r => b.ranges.filterMap (clip? r)⟩

/-- A range without the surrogates at its ends. -/
def trimmed (first last : Nat) : List (Nat × Nat) :=
  let isSurrogate (n : Nat) : Bool := 0xD800 ≤ n && n < 0xE000
  let first := if isSurrogate first then 0xE000 else first
  let last := if isSurrogate last then 0xD7FF else last
  if first ≤ last then [(first, last)] else []

/-- What lies between ranges in order, from a code point on. -/
def gapsFrom (start : Nat) : List (Nat × Nat) → List (Nat × Nat)
  | [] => trimmed start lastCode
  | (first, last) :: rest =>
      (if first == 0 then [] else trimmed start (first - 1)) ++ gapsFrom (last + 1) rest

/-- The characters that are not in a set. -/
def compl (set : CharSet) : CharSet := ⟨gapsFrom 0 set.ranges⟩

/-- The characters in `a` and not in `b`. -/
def diff (a b : CharSet) : CharSet := inter a (compl b)

/-- The characters in exactly one of two sets. -/
def symmDiff (a b : CharSet) : CharSet := union (diff a b) (diff b a)

/-! ## Case -/

/-- The ranges of code points that are `offset` places after those that a run shares with a set.
Neighbours in a run may be more than one place apart; then each is a range of its own. -/
def shifted (set : CharSet) (run : Unicode.FoldRun) (offset : Int) : List (Nat × Nat) :=
  let move (n : Nat) : Nat := ((n : Int) + offset).toNat
  (set.ranges.filterMap (clip? (run.first, run.last))).flatMap fun (first, last) =>
    if run.step == 1 then [(move first, move last)]
    else (List.range' first (last + 1 - first)).filterMap fun n =>
      if run.holds n then some (move n, move n) else none

/-- The characters that a character of the set folds to, and the set. -/
def withTargets (set : CharSet) : CharSet :=
  set.addRanges (Unicode.foldRuns.flatMap fun run => set.shifted run run.offset)

/-- The run that takes the targets of a run back to it. -/
def backward (run : Unicode.FoldRun) : Unicode.FoldRun :=
  { run with
    first := ((run.first : Int) + run.offset).toNat
    last := ((run.last : Int) + run.offset).toNat }

/-- The characters that fold to a character of the set, and the set. -/
def withSources (set : CharSet) : CharSet :=
  set.addRanges (Unicode.foldRuns.flatMap fun run => set.shifted (backward run) (-run.offset))

/-- The characters that are the same as one of the set up to case.  Folding twice is folding once,
so they are those that fold to what a character of the set folds to. -/
def folded (set : CharSet) : CharSet := set.withTargets.withSources

/-- The characters that are the same as one of the set up to the case of ASCII letters. -/
def asciiFolded (set : CharSet) : CharSet :=
  let letters : Unicode.FoldRun := ⟨0x41, 0x5A, 1, 32⟩
  (set.addRanges (set.shifted letters 32)).addRanges (set.shifted (backward letters) (-32))

/-! ## Classes -/

/-- The set of some ranges in order. -/
def ofRanges (ranges : List (Char × Char)) : CharSet :=
  ⟨ranges.map fun (first, last) => (first.toNat, last.toNat)⟩

/-- The ASCII decimal digits. -/
def asciiDecimal : CharSet := ofRanges [('0', '9')]

/-- The ASCII spaces. -/
def asciiSpace : CharSet := ofRanges [('\t', '\r'), (' ', ' ')]

/-- The ASCII word characters. -/
def asciiWord : CharSet := ofRanges [('0', '9'), ('A', 'Z'), ('_', '_'), ('a', 'z')]

/-- The decimal digits. -/
def decimal : CharSet := ⟨asciiDecimal.ranges ++ Unicode.decimalRanges⟩

/-- The spaces. -/
def space : CharSet :=
  ⟨[(0x09, 0x0D), (0x20, 0x20), (0x85, 0x85), (0xA0, 0xA0), (0x1680, 0x1680), (0x2000, 0x200A),
    (0x2028, 0x2029), (0x202F, 0x202F), (0x205F, 0x205F), (0x3000, 0x3000)]⟩

/-- The word characters. -/
def word : CharSet := ⟨asciiWord.ranges ++ Unicode.wordRanges⟩

/-- The ASCII class of a name, as in `[:alpha:]`. -/
def ofClassName? : String → Option CharSet
  | "alnum" => some (ofRanges [('0', '9'), ('A', 'Z'), ('a', 'z')])
  | "alpha" => some (ofRanges [('A', 'Z'), ('a', 'z')])
  | "ascii" => some (ofRanges [('\x00', '\x7f')])
  | "blank" => some (ofRanges [('\t', '\t'), (' ', ' ')])
  | "cntrl" => some (ofRanges [('\x00', '\x1f'), ('\x7f', '\x7f')])
  | "digit" => some asciiDecimal
  | "graph" => some (ofRanges [('!', '~')])
  | "lower" => some (ofRanges [('a', 'z')])
  | "print" => some (ofRanges [(' ', '~')])
  | "punct" => some (ofRanges [('!', '/'), (':', '@'), ('[', '\x60'), ('\x7b', '~')])
  | "space" => some asciiSpace
  | "upper" => some (ofRanges [('A', 'Z')])
  | "word" => some asciiWord
  | "xdigit" => some (ofRanges [('0', '9'), ('A', 'F'), ('a', 'f')])
  | _ => none

/-! ## Examples -/

example : (one 'k').folded = ⟨[(0x4B, 0x4B), (0x6B, 0x6B), (0x212A, 0x212A)]⟩ := by decide +kernel

example : (compl (range 'b' 'y')).inter (range 'a' 'z') = ⟨[(0x61, 0x61), (0x7A, 0x7A)]⟩ := by
  decide +kernel

end CharSet

end Stylesheet
