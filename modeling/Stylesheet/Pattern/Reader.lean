import Stylesheet.Automaton
import Stylesheet.Text

/-!
# Reading patterns

`Pattern.ofText?` reads a regular expression and refuses a text that is none.

* Alternatives are separated by `|` and may be empty.
* `*`, `+`, `?` and `{m}`, `{m,}`, `{m,n}` repeat the item before them, which may not be missing; a
  `?` after them makes them reluctant.  Numbers may have spaces around them, and `m ≤ n`.
* `(…)`, `(?:…)`, `(?<name>…)` and `(?P<name>…)` group.  Names are used once.  Looking around is
  refused, and so are back references.
* `(?flags)` changes flags up to the end of the enclosing group, `(?flags:…)` inside the group.  The
  flags are `i` (ignore case), `m` (anchors at lines), `s` (a point takes line feeds), `R` (carriage
  returns end lines), `x` (spaces and `#` comments mean nothing), `U` (swap greedy and reluctant)
  and `u` (all of Unicode; without it the classes are ASCII).
* `[…]` is a class of characters and ranges.  It may be negated, hold other classes, and be combined
  by `&&`, `--` and `~~`, which group to the left.  A `]` in front and a `-` in front or at the end
  stand for themselves.  Ignoring case applies to a class before it is negated.
* `^`, `$`, `\A`, `\z`, `\b`, `\B` and the forms of `\b` with a name in braces are anchors.
* `\d`, `\s`, `\w` and their capitals are classes.  `\xHH`, `\uHHHH`, `\UHHHHHHHH` and the forms
  with braces are characters by number, and `\a`, `\f`, `\t`, `\n`, `\r`, `\v` control characters.
  Every other ASCII character that is no letter or digit may be escaped.
* A `]`, a `}` and all other characters stand for themselves.

Classes of characters with a property of Unicode, `\p{…}` and `\P{…}`, are left out and refused: only
the tables of the classes above are here.  An allow-list can be made with an engine that reads them
(`Pattern.Engine`).

Two limits keep patterns small.  The *height* of a pattern is how deep its repetitions, groups,
classes, sequences and choices are nested as they are written; it is at most `heightLimit`.  And the
automata of a pattern have to be within their limit (`Pattern.fits`).

The reader goes through the text once.  It keeps the flags, the alternatives and items of the
current group, and the groups around it (`State`).  A step takes one item, however long; the
characters that it took are then passed over.
-/

namespace Stylesheet.Pattern

open Stylesheet.Text (headIs hexNumber isHexDigit isSpace scalar?)

/-! ## Flags -/

/-- The flags that are on. -/
structure Flags where
  /-- Ignore case. -/
  ignoreCase : Bool := false
  /-- Anchors match at lines. -/
  lines : Bool := false
  /-- A point takes line feeds. -/
  dotAll : Bool := false
  /-- Carriage returns end lines. -/
  carriage : Bool := false
  /-- Spaces and comments mean nothing. -/
  spaced : Bool := false
  /-- Classes hold all of Unicode. -/
  unicode : Bool := true
  /-- Repetitions are reluctant, and greedy with a `?` after them. -/
  reluctant : Bool := false

/-- Turn a flag on or off, if there is such a flag. -/
def Flags.set? (flags : Flags) (flag : Char) (on : Bool) : Option Flags :=
  match flag with
  | 'i' => some { flags with ignoreCase := on }
  | 'm' => some { flags with lines := on }
  | 's' => some { flags with dotAll := on }
  | 'R' => some { flags with carriage := on }
  | 'x' => some { flags with spaced := on }
  | 'u' => some { flags with unicode := on }
  | 'U' => some { flags with reluctant := on }
  | _ => none

/-- Read flags up to the `)` or `:` after them.  `seen` are the flags so far, `negated` says whether
a `-` came, and `dangling` whether it came last.  Gives the flags, whether none was written, the
closing character and the rest. -/
def readFlags (flags : Flags) (seen : List Char) (negated dangling : Bool) :
    List Char → Option (Flags × Bool × Char × List Char)
  | [] => none
  | c :: cs =>
      if c == ')' || c == ':' then
        if dangling then none else some (flags, seen.isEmpty, c, cs)
      else if c == '-' then
        if negated then none else readFlags flags seen true true cs
      else if seen.contains c then none
      else do readFlags (← flags.set? c !negated) (c :: seen) negated false cs

/-- The text without what means nothing when spaces mean nothing: spaces, and comments from `#` to
the end of the line.  `inComment` says whether a comment has started. -/
def dropSpacesFrom (inComment : Bool) : List Char → List Char
  | [] => []
  | c :: cs =>
      if inComment then dropSpacesFrom (c != '\n') cs
      else if isSpace c then dropSpacesFrom false cs
      else if c == '#' then dropSpacesFrom true cs
      else c :: cs

/-- The text after what means nothing here. -/
def dropSpaces (flags : Flags) (cs : List Char) : List Char :=
  if flags.spaced then dropSpacesFrom false cs else cs

/-! ## Escapes -/

/-- A single item that is no group. -/
inductive Atom where
  /-- A character. -/
  | char (c : Char)
  /-- A set of characters. -/
  | set (s : CharSet)
  /-- An anchor. -/
  | anchor (a : Anchor)

/-- A set as the flags have it: Unicode or ASCII, and perhaps its complement.  Without Unicode there
is no complement, since it would hold parts of characters. -/
def classSet? (flags : Flags) (unicode ascii : CharSet) (negated : Bool) : Option Atom :=
  match flags.unicode, negated with
  | true, false => some (.set unicode)
  | true, true => some (.set unicode.compl)
  | false, false => some (.set ascii)
  | false, true => none

/-- The character with the number that some hexadecimal digits write. -/
def charOfHex? (digits : List Char) : Option Char :=
  if digits.isEmpty || !digits.all isHexDigit then none else scalar? (hexNumber digits)

/-- The character by number after `\x`, `\u` or `\U`, which has `n` digits or braces.  Without
Unicode two digits are a byte, which has to be a character of its own. -/
def readHex (flags : Flags) (n : Nat) (cs : List Char) : Option (Atom × List Char) :=
  match cs with
  | '\x7b' :: rest =>
      let digits := rest.takeWhile (· != '\x7d')
      if digits.length < rest.length then do
        return (.char (← charOfHex? digits), rest.drop (digits.length + 1))
      else none
  | _ =>
      if cs.length < n then none
      else do
        let c ← charOfHex? (cs.take n)
        if n == 2 && !flags.unicode && 0x80 ≤ c.toNat then none else some (.char c, cs.drop n)

/-- The anchor after `\b`: perhaps one with a name in braces.  Braces that hold no name are left for
a repetition. -/
def readBoundary (unicode : Bool) (cs : List Char) : Option (Atom × List Char) :=
  match cs with
  | '\x7b' :: rest =>
      if headIs (fun c => c.isAlpha || c == '-') rest then
        let name := rest.takeWhile fun c => c.isAlpha || c == '-'
        let after := rest.drop name.length
        if !headIs (· == '\x7d') after then none
        else
          match String.ofList name with
          | "start" => some (.anchor (.wordStart unicode), after.drop 1)
          | "end" => some (.anchor (.wordEnd unicode), after.drop 1)
          | "start-half" => some (.anchor (.noWordBefore unicode), after.drop 1)
          | "end-half" => some (.anchor (.noWordAfter unicode), after.drop 1)
          | _ => none
      else if rest.isEmpty then none
      else some (.anchor (.boundary unicode), cs)
  | _ => some (.anchor (.boundary unicode), cs)

/-- The item that an escape writes; its backslash came just before. -/
def readEscape (flags : Flags) : List Char → Option (Atom × List Char)
  | [] => none
  | c :: cs =>
      match c with
      | 'x' => readHex flags 2 cs
      | 'u' => readHex flags 4 cs
      | 'U' => readHex flags 8 cs
      | 'd' => do return (← classSet? flags .decimal .asciiDecimal false, cs)
      | 'D' => do return (← classSet? flags .decimal .asciiDecimal true, cs)
      | 's' => do return (← classSet? flags .space .asciiSpace false, cs)
      | 'S' => do return (← classSet? flags .space .asciiSpace true, cs)
      | 'w' => do return (← classSet? flags .word .asciiWord false, cs)
      | 'W' => do return (← classSet? flags .word .asciiWord true, cs)
      | 'a' => some (.char '\x07', cs)
      | 'f' => some (.char '\x0c', cs)
      | 't' => some (.char '\t', cs)
      | 'n' => some (.char '\n', cs)
      | 'r' => some (.char '\r', cs)
      | 'v' => some (.char '\x0b', cs)
      | 'A' => some (.anchor .textStart, cs)
      | 'z' => some (.anchor .textEnd, cs)
      | 'b' => readBoundary flags.unicode cs
      | 'B' => some (.anchor (.notBoundary flags.unicode), cs)
      | '<' => some (.anchor (.wordStart flags.unicode), cs)
      | '>' => some (.anchor (.wordEnd flags.unicode), cs)
      | _ => if c.isAlphanum || 0x80 ≤ c.toNat then none else some (.char c, cs)

/-! ## Classes -/

/-- How two sets in a class are combined. -/
inductive SetOperator where
  /-- `&&`. -/
  | inter
  /-- `--`. -/
  | diff
  /-- `~~`. -/
  | symmDiff

/-- Combine two sets. -/
def SetOperator.apply : SetOperator → CharSet → CharSet → CharSet
  | .inter => .inter
  | .diff => .diff
  | .symmDiff => .symmDiff

/-- Something that has been read, with its height. -/
structure Read (α : Type) where
  /-- What has been read. -/
  value : α
  /-- Its height. -/
  height : Nat := 0

/-- The height of some things beside each other: two or more are nested one level deeper. -/
def heightOf (heights : List Nat) : Nat :=
  match heights with
  | [] => 0
  | [h] => h
  | _ => heights.foldl max 0 + 1

/-- A class that is still open. -/
structure OpenClass where
  /-- Does it start with `^`? -/
  negated : Bool
  /-- The items since the last operator, last first. -/
  items : List (Read CharSet) := []
  /-- What came before the last operator, and the operator. -/
  pending : Option (Read CharSet × SetOperator) := none

/-- A set in a case that the flags ask for. -/
def Flags.foldSet (flags : Flags) (set : CharSet) : CharSet :=
  match flags.ignoreCase, flags.unicode with
  | false, _ => set
  | true, true => set.folded
  | true, false => set.asciiFolded

/-- Add an item to a class. -/
def OpenClass.add (cls : OpenClass) (item : Read CharSet) : OpenClass :=
  { cls with items := item :: cls.items }

/-- The items of a class since the last operator. -/
def OpenClass.current (cls : OpenClass) : Read CharSet where
  value := unionOf (cls.items.map (·.value))
  height := heightOf (cls.items.map (·.height))

/-- The items of a class combined with what came before the last operator. -/
def OpenClass.combined (flags : Flags) (cls : OpenClass) : Read CharSet :=
  match cls.pending with
  | some (left, operator) =>
      let right := cls.current
      { value := operator.apply (flags.foldSet left.value) (flags.foldSet right.value)
        height := heightOf [left.height, right.height] }
  | none => cls.current

/-- Go on after an operator. -/
def OpenClass.operate (flags : Flags) (cls : OpenClass) (operator : SetOperator) : OpenClass :=
  { cls with items := [], pending := some (cls.combined flags, operator) }

/-- The set of a class that is closed.  Without Unicode there is no complement. -/
def OpenClass.close? (flags : Flags) (cls : OpenClass) : Option (Read CharSet) :=
  let inside := cls.combined flags
  let set := flags.foldSet inside.value
  let height := inside.height + 1
  if !cls.negated then some ⟨set, height⟩
  else if flags.unicode then some ⟨set.compl, height⟩
  else none

/-- The start of a class after its bracket: a `^`, and then hyphens or a closing bracket that stand
for themselves. -/
def openClass (flags : Flags) (cs : List Char) : OpenClass × List Char :=
  let cs := dropSpaces flags cs
  let (negated, cs) :=
    if headIs (· == '^') cs then (true, dropSpaces flags (cs.drop 1)) else (false, cs)
  if headIs (· == '-') cs then
    let hyphens := cs.takeWhile (· == '-')
    ({ negated, items := hyphens.map fun c => ⟨.one c, 0⟩ }, cs.drop hyphens.length)
  else if headIs (· == ']') cs then ({ negated, items := [⟨.one ']', 0⟩] }, cs.drop 1)
  else ({ negated }, cs)

/-- A named class such as `[:alpha:]` after its bracket: whether it is negated, its set, and the
rest. -/
def readNamedClass (cs : List Char) : Option (Bool × CharSet × List Char) :=
  match cs with
  | ':' :: rest =>
      let (negated, rest) := if headIs (· == '^') rest then (true, rest.drop 1) else (false, rest)
      let name := rest.takeWhile (· != ':')
      match rest.drop name.length with
      | ':' :: ']' :: after => do
          let set ← CharSet.ofClassName? (String.ofList name)
          return (negated, set, after)
      | _ => none
  | _ => none

/-- The set of a named class.  Ignoring case applies before negation, and without Unicode there is
no complement. -/
def Flags.namedSet? (flags : Flags) (negated : Bool) (set : CharSet) : Option CharSet :=
  if !negated then some set
  else if flags.unicode then some (flags.foldSet set).compl
  else none

/-- A character or escape in a class. -/
def readClassAtom (flags : Flags) : List Char → Option (Atom × List Char)
  | [] => none
  | '\\' :: cs => readEscape flags cs
  | c :: cs => some (.char c, cs)

/-- The range between two characters.  Without Unicode a class has ASCII characters only. -/
def Flags.range? (flags : Flags) (first last : Char) : Option CharSet :=
  if first ≤ last && (flags.unicode || last.toNat < 0x80) then some (.range first last) else none

/-- A character, range or escape in a class. -/
def readClassItem (flags : Flags) (cs : List Char) : Option (CharSet × List Char) := do
  let (first, rest) ← readClassAtom flags cs
  let rest := dropSpaces flags rest
  let after := dropSpaces flags (rest.drop 1)
  if headIs (· == '-') rest && !headIs (fun c => c == ']' || c == '-') after then
    let (last, rest) ← readClassAtom flags after
    match first, last with
    | .char a, .char b => do return (← flags.range? a b, rest)
    | _, _ => none
  else
    match first with
    | .char a => do return (← flags.range? a a, rest)
    | .set s => some (s, rest)
    | .anchor _ => none

/-- The operator that a class has here, and its length less one. -/
def setOperator? (c : Char) (cs : List Char) : Option SetOperator :=
  if headIs (· == c) cs then
    match c with
    | '&' => some .inter
    | '-' => some .diff
    | '~' => some .symmDiff
    | _ => none
  else none

/-- Read the rest of a class after `skip` characters, which have been taken already, given the
innermost open class and those around it. -/
def readClassFrom (flags : Flags) (cls : OpenClass) (outer : List OpenClass) :
    (skip : Nat) → List Char → Option (Read CharSet × List Char)
  | _, [] => none
  | skip + 1, _ :: cs => readClassFrom flags cls outer skip cs
  | 0, c :: cs =>
      let passOver (rest : List Char) : Nat := cs.length - rest.length
      if flags.spaced && (isSpace c || c == '#') then
        readClassFrom flags cls outer (passOver (dropSpaces flags (c :: cs))) cs
      else if c == '[' then
        match readNamedClass cs with
        | some (negated, set, rest) => do
            let set ← flags.namedSet? negated set
            readClassFrom flags (cls.add ⟨set, 0⟩) outer (passOver rest) cs
        | none =>
            let (inner, rest) := openClass flags cs
            readClassFrom flags inner (cls :: outer) (passOver rest) cs
      else if c == ']' then do
        let set ← cls.close? flags
        match outer with
        | [] => some (set, cs)
        | enclosing :: outer => readClassFrom flags (enclosing.add set) outer 0 cs
      else
        match setOperator? c cs with
        | some operator => readClassFrom flags (cls.operate flags operator) outer 1 cs
        | none => do
            let (set, rest) ← readClassItem flags (c :: cs)
            readClassFrom flags (cls.add ⟨set, 0⟩) outer (passOver rest) cs

/-- A class after its opening bracket. -/
def readClass (flags : Flags) (cs : List Char) : Option (Read CharSet × List Char) :=
  let (cls, rest) := openClass flags cs
  readClassFrom flags cls [] 0 rest

/-! ## Repetitions -/

/-- The number at the start of a text, with spaces around it; none if there are no digits. -/
def readDecimal (cs : List Char) : Option Nat × List Char :=
  let cs := cs.dropWhile isSpace
  let digits := cs.takeWhile Char.isDigit
  let rest := (cs.drop digits.length).dropWhile isSpace
  if digits.isEmpty then (none, rest)
  else (some (digits.foldl (fun n c => n * 10 + (c.toNat - '0'.toNat)) 0), rest)

/-- A count that is not too large. -/
def count? (n : Option Nat) : Option Nat := n.filter (· < 0x100000000)

/-- The least and the greatest count after an opening brace, and the rest after the closing one. -/
def readCounts (flags : Flags) (cs : List Char) : Option (Nat × Option Nat × List Char) :=
  let (least, rest) := readDecimal (dropSpaces flags cs)
  match rest with
  | '\x7d' :: after => do
      let n ← count? least
      return (n, some n, after)
  | ',' :: rest =>
      let rest := dropSpaces flags rest
      match rest with
      | '\x7d' :: after => do return (← count? least, none, after)
      | _ =>
          let (greatest, rest) := readDecimal rest
          match rest with
          | '\x7d' :: after => do
              let m ← count? least
              let n ← count? greatest
              if m ≤ n then some (m, some n, after) else none
          | _ => none
  | _ => none

/-- Is there the mark of a reluctant repetition?  And the text after it. -/
def readReluctant (cs : List Char) : Bool × List Char :=
  if headIs (· == '?') cs then (true, cs.drop 1) else (false, cs)

/-! ## Groups -/

/-- A group that is still open. -/
structure Group where
  /-- The flags around the group. -/
  flags : Flags
  /-- The number of the group, if it captures. -/
  number : Option Nat := none
  /-- The alternatives that are complete, last first. -/
  alternatives : List (Read Pattern) := []
  /-- The items of the current alternative, last first; setting flags is an item without a
  pattern. -/
  items : List (Read (Option Pattern)) := []

/-- The current alternative. -/
def Group.current (group : Group) : Read Pattern where
  value := sequence (group.items.reverse.filterMap (·.value))
  height := heightOf (group.items.map (·.height))

/-- All alternatives. -/
def Group.inside (group : Group) : Read Pattern :=
  let alternatives := (group.current :: group.alternatives).reverse
  { value := oneOf (alternatives.map (·.value))
    height := heightOf (alternatives.map (·.height)) }

/-- The group as an item of the group around it. -/
def Group.item (group : Group) : Read (Option Pattern) :=
  let inside := group.inside
  { value := some (match group.number with
      | some n => .group n inside.value
      | none => inside.value)
    height := inside.height + 1 }

/-- Start the next alternative. -/
def Group.nextAlternative (group : Group) : Group :=
  { group with alternatives := group.current :: group.alternatives, items := [] }

/-- Add an item. -/
def Group.add (group : Group) (item : Read (Option Pattern)) : Group :=
  { group with items := item :: group.items }

/-- Repeat the last item, which has to be a pattern. -/
def Group.repeat? (group : Group) (min : Nat) (max : Option Nat) (reluctant : Bool) :
    Option Group :=
  match group.items with
  | ⟨some p, height⟩ :: items =>
      some { group with items := ⟨some (repeated p min max reluctant), height + 1⟩ :: items }
  | _ => none

/-- What has been read. -/
structure State where
  /-- The flags that are on. -/
  flags : Flags := {}
  /-- The innermost open group, or the whole pattern. -/
  group : Group := { flags := {} }
  /-- The groups around it, innermost first. -/
  outer : List Group := []
  /-- The names of groups. -/
  names : List (List Char) := []
  /-- The number of the last group that captures. -/
  captures : Nat := 0

/-- A character that the name of a group can start with. -/
def startsGroupName (c : Char) : Bool :=
  c == '_' || (Unicode.isWord c && !Unicode.isDecimal c)

/-- A character that the name of a group can go on with. -/
def isGroupNameChar (c : Char) : Bool :=
  c == '.' || c == '[' || c == ']' || Unicode.isWord c

/-- The name of a group up to the `>` after it. -/
def readGroupName (cs : List Char) : Option (List Char × List Char) :=
  let name := cs.takeWhile (· != '>')
  if name.length < cs.length && headIs startsGroupName name && name.all isGroupNameChar then
    some (name, cs.drop (name.length + 1))
  else none

/-- Open a group with some flags inside. -/
def State.openGroup (s : State) (inside : Flags) : State :=
  { s with flags := inside, group := { flags := s.flags }, outer := s.group :: s.outer }

/-- Open a group that captures. -/
def State.openCapture (s : State) : State :=
  let number := s.captures + 1
  { s with
    group := { flags := s.flags, number := some number }
    outer := s.group :: s.outer
    captures := number }

/-- Open a group with a name, unless the name is taken. -/
def State.openNamed? (s : State) (cs : List Char) : Option (State × List Char) := do
  let (name, rest) ← readGroupName cs
  if s.names.contains name then none
  else some ({ s.openCapture with names := name :: s.names }, rest)

/-- Read the start of a group after its parenthesis. -/
def readGroupStart (s : State) (cs : List Char) : Option (State × List Char) :=
  match dropSpaces s.flags cs with
  | '?' :: '=' :: _ => none
  | '?' :: '!' :: _ => none
  | '?' :: '<' :: '=' :: _ => none
  | '?' :: '<' :: '!' :: _ => none
  | '?' :: 'P' :: '<' :: rest => s.openNamed? rest
  | '?' :: '<' :: rest => s.openNamed? rest
  | '?' :: rest => do
      let (flags, isEmpty, closing, rest) ← readFlags s.flags [] false false rest
      if closing == ':' then some (s.openGroup flags, rest)
      else if isEmpty then none
      else some ({ s with flags, group := s.group.add ⟨none, 0⟩ }, rest)
  | rest => some (s.openCapture, rest)

/-- Close the innermost group. -/
def State.closeGroup? (s : State) : Option State :=
  match s.outer with
  | [] => none
  | enclosing :: outer =>
      some { s with
        flags := s.group.flags
        group := enclosing.add s.group.item
        outer }

/-! ## The whole pattern -/

/-- The pattern of an item. -/
def Atom.pattern (flags : Flags) : Atom → Pattern
  | .char c => ofSet (flags.foldSet (.one c))
  | .set s => ofSet s
  | .anchor a => .anchor a

/-- The set of characters that a point takes.  Without Unicode it would take parts of characters. -/
def Flags.dot? (flags : Flags) : Option CharSet :=
  if !flags.unicode then none
  else if flags.dotAll then some .any
  else if flags.carriage then some (CharSet.union (.one '\r') (.one '\n')).compl
  else some (CharSet.one '\n').compl

/-- Take one item that starts with `c`: what has been read then, and the text after it. -/
def readStep (s : State) (c : Char) (cs : List Char) : Option (State × List Char) :=
  let add (p : Pattern) (height : Nat) (rest : List Char) : Option (State × List Char) :=
    some ({ s with group := s.group.add ⟨some p, height⟩ }, rest)
  let repeatLast (min : Nat) (max : Option Nat) (rest : List Char) : Option (State × List Char) :=
    let (marked, rest) := readReluctant rest
    let reluctant := marked != s.flags.reluctant
    (s.group.repeat? min max reluctant).map fun group => ({ s with group }, rest)
  match c with
  | '(' => readGroupStart s cs
  | ')' => s.closeGroup?.map fun s => (s, cs)
  | '|' => some ({ s with group := s.group.nextAlternative }, cs)
  | '[' => do
      let (cls, rest) ← readClass s.flags cs
      add (ofSet cls.value) cls.height rest
  | '?' => repeatLast 0 (some 1) cs
  | '*' => repeatLast 0 none cs
  | '+' => repeatLast 1 none cs
  | '\x7b' => do
      let (min, max, rest) ← readCounts s.flags cs
      repeatLast min max rest
  | '\\' => do
      let (atom, rest) ← readEscape s.flags cs
      add (atom.pattern s.flags) 0 rest
  | '.' => do add (ofSet (← s.flags.dot?)) 0 cs
  | '^' => add (.anchor (if s.flags.lines then .lineStart s.flags.carriage else .textStart)) 0 cs
  | '$' => add (.anchor (if s.flags.lines then .lineEnd s.flags.carriage else .textEnd)) 0 cs
  | _ => add (Atom.pattern s.flags (.char c)) 0 cs

/-- Read the rest of a pattern after `skip` characters, which have been taken already. -/
def readFrom (s : State) : (skip : Nat) → List Char → Option State
  | _, [] => some s
  | skip + 1, _ :: cs => readFrom s skip cs
  | 0, c :: cs =>
      if s.flags.spaced && (isSpace c || c == '#') then
        readFrom s (cs.length - (dropSpaces s.flags (c :: cs)).length) cs
      else do
        let (s, rest) ← readStep s c cs
        readFrom s (cs.length - rest.length) cs

/-- The greatest height of a pattern. -/
def heightLimit : Nat := 250

/-- The pattern that a text writes, if it writes one within the limits. -/
def ofText? (text : String) : Option Pattern := do
  let s ← readFrom {} 0 text.toList
  let whole := s.group.inside
  if s.outer.isEmpty && whole.height ≤ heightLimit && whole.value.fits then some whole.value
  else none

/-! ## Examples -/

example : (ofText? "^\\.col-\\d+$").map (·.occursIn ".col-12") = some true := by decide +kernel

example : (ofText? "(?i)[^a-c]").map (·.occursIn "B") = some false := by decide +kernel

example : ["(", "*", "a\x7b2,1\x7d", "(?=a)", "\\1", "\\q"].all fun p => (ofText? p).isNone := by
  decide +kernel

example : (readFrom {} 0 "(a(b[c[de]])*)".toList).map (·.group.inside.height) = some 9 := by
  decide +kernel

example : (ofText? "(?:^|$)\x7b3000000000\x7d").isSome := by decide +kernel

end Stylesheet.Pattern
