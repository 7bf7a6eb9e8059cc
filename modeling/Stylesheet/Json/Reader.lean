import Stylesheet.Json

/-!
# Reading JSON

`Json.ofText?` reads a JSON text.  There may be spaces, tabs, line feeds and carriage returns around
every token and nothing else: no comments and no trailing commas.

The text is cut into tokens first: brackets, commas and colons, and the values that are no
containers.  Then the tokens are read with a stack of the containers that are still open, so
containers may be nested to any depth.

A string may not hold control characters.  Its escapes are read as numbers; two of them that are a
surrogate pair make one character, and one that is half of a pair makes the string `unpaired`.
-/

namespace Stylesheet.Json

open Stylesheet.Text (headIs hexNumber isHexDigit scalar?)

/-! ## Tokens -/

/-- A token of a JSON text. -/
inductive Token where
  /-- `[`. -/
  | openArray
  /-- `]`. -/
  | closeArray
  /-- An opening brace. -/
  | openObject
  /-- A closing brace. -/
  | closeObject
  /-- `,`. -/
  | comma
  /-- `:`. -/
  | colon
  /-- A value that is no container. -/
  | atom (value : Json)

/-- A blank between tokens. -/
def isBlank (c : Char) : Bool := c == ' ' || c == '\t' || c == '\n' || c == '\r'

/-! ### Strings -/

/-- The number that an escape stands for, and its length; its backslash came just before. -/
def escape? : List Char → Option (Nat × Nat)
  | '"' :: _ => some (0x22, 1)
  | '\\' :: _ => some (0x5C, 1)
  | '/' :: _ => some (0x2F, 1)
  | 'b' :: _ => some (0x08, 1)
  | 'f' :: _ => some (0x0C, 1)
  | 'n' :: _ => some (0x0A, 1)
  | 'r' :: _ => some (0x0D, 1)
  | 't' :: _ => some (0x09, 1)
  | 'u' :: cs =>
      let digits := cs.take 4
      if digits.length == 4 && digits.all isHexDigit then some (hexNumber digits, 5) else none
  | _ => none

/-- The numbers of the characters of a string whose opening quote came before, and its length with
the closing quote, passing over the `skip` characters of an escape. -/
def unitsFrom : (skip : Nat) → List Char → Option (List Nat × Nat)
  | _, [] => none
  | skip + 1, _ :: cs => do
      let (units, n) ← unitsFrom skip cs
      return (units, n + 1)
  | 0, c :: cs =>
      if c == '"' then some ([], 1)
      else if c.toNat < 0x20 then none
      else if c == '\\' then do
        let (unit, length) ← escape? cs
        let (units, n) ← unitsFrom length cs
        return (unit :: units, n + 1)
      else do
        let (units, n) ← unitsFrom 0 cs
        return (c.toNat :: units, n + 1)

/-- The first half of a surrogate pair. -/
def isHighSurrogate (n : Nat) : Bool := 0xD800 ≤ n && n ≤ 0xDBFF

/-- The second half of a surrogate pair. -/
def isLowSurrogate (n : Nat) : Bool := 0xDC00 ≤ n && n ≤ 0xDFFF

/-- The character of a surrogate pair. -/
def pairValue (high low : Nat) : Nat := 0x10000 + (high - 0xD800) * 0x400 + (low - 0xDC00)

/-- The text of a sequence of numbers, unless half of a pair stands alone.  `high` is the first half
of a pair that came just before. -/
def textFrom (high : Option Nat) : List Nat → Option (List Char)
  | [] => if high.isSome then none else some []
  | n :: rest =>
      match high with
      | some h =>
          if isLowSurrogate n then do
            return (← scalar? (pairValue h n)) :: (← textFrom none rest)
          else none
      | none =>
          if isHighSurrogate n then textFrom (some n) rest
          else do return (← scalar? n) :: (← textFrom none rest)

/-- The string value of a sequence of numbers. -/
def ofUnits (units : List Nat) : Json :=
  match textFrom none units with
  | some cs => .string (.ofList cs)
  | none => .unpaired

/-! ### Numbers -/

/-- The number that some decimal digits write. -/
def decimalNumber (digits : List Char) : Nat :=
  digits.foldl (fun n c => n * 10 + (c.toNat - '0'.toNat)) 0

/-- The digits of the whole part of a number: a zero, or digits that start with no zero. -/
def wholeDigits (cs : List Char) : List Char :=
  if headIs (· == '0') cs then ['0'] else cs.takeWhile Char.isDigit

/-- The digits of a fraction, which may be missing but not empty. -/
def fraction? : List Char → Option (List Char)
  | '.' :: cs => if headIs Char.isDigit cs then some (cs.takeWhile Char.isDigit) else none
  | _ => some []

/-- An exponent, which may be missing but not empty, and its length. -/
def exponent? : List Char → Option (Int × Nat)
  | e :: cs =>
      if e == 'e' || e == 'E' then
        let negative := headIs (· == '-') cs
        let sign := if negative || headIs (· == '+') cs then 1 else 0
        let digits := (cs.drop sign).takeWhile Char.isDigit
        if digits.isEmpty then none
        else
          let n : Int := decimalNumber digits
          some (if negative then -n else n, 1 + sign + digits.length)
      else some (0, 0)
  | [] => some (0, 0)

/-- The number at the start of a text, and its length. -/
def number? (cs : List Char) : Option (Json × Nat) := do
  let sign := if headIs (· == '-') cs then 1 else 0
  let whole := wholeDigits (cs.drop sign)
  if whole.isEmpty then none
  else
    let fraction ← fraction? (cs.drop (sign + whole.length))
    let point := if fraction.isEmpty then 0 else 1
    let n := sign + whole.length + point + fraction.length
    let (exponent, length) ← exponent? (cs.drop n)
    let m : Int := decimalNumber (whole ++ fraction)
    return (.number (if sign == 1 then -m else m) (exponent - fraction.length), n + length)

/-! ### All tokens -/

/-- The token that starts with `c`, and its length. -/
def token? (c : Char) (cs : List Char) : Option (Token × Nat) :=
  match c with
  | '[' => some (.openArray, 1)
  | ']' => some (.closeArray, 1)
  | '\x7b' => some (.openObject, 1)
  | '\x7d' => some (.closeObject, 1)
  | ',' => some (.comma, 1)
  | ':' => some (.colon, 1)
  | '"' => do
      let (units, n) ← unitsFrom 0 cs
      return (.atom (ofUnits units), n + 1)
  | 'n' => if "ull".toList.isPrefixOf cs then some (.atom .null, 4) else none
  | 't' => if "rue".toList.isPrefixOf cs then some (.atom (.bool true), 4) else none
  | 'f' => if "alse".toList.isPrefixOf cs then some (.atom (.bool false), 5) else none
  | _ => do
      let (value, n) ← number? (c :: cs)
      return (.atom value, n)

/-- The tokens of a text after its first `skip` characters. -/
def tokensFrom : (skip : Nat) → List Char → Option (List Token)
  | _, [] => some []
  | skip + 1, _ :: cs => tokensFrom skip cs
  | 0, c :: cs =>
      if isBlank c then tokensFrom 0 cs
      else do
        let (token, n) ← token? c cs
        return token :: (← tokensFrom (n - 1) cs)

/-! ## Values -/

/-- A container that is still open. -/
inductive Frame where
  /-- An array with the items before the current one, last first. -/
  | array (items : List Json)
  /-- An object with the members before the current one, last first, and the current key. -/
  | object (members : List Member) (key : Option String)

/-- What has to come next. -/
inductive Expected where
  /-- A value. -/
  | value
  /-- A value, or the end of an array that has just been opened. -/
  | valueOrEnd
  /-- A key of an object with some members, last first. -/
  | key (members : List Member)
  /-- A key, or the end of an object that has just been opened. -/
  | keyOrEnd
  /-- A colon after a key. -/
  | colon (members : List Member) (key : Option String)
  /-- What follows a value: a comma, the end of the container, or the end of the text. -/
  | next (value : Json)

/-- The key that a value writes, if it is a string. -/
def asKey? : Json → Option (Option String)
  | .string s => some (some s)
  | .unpaired => some none
  | _ => none

/-- Take the next token: the open containers and what has to come then. -/
def step (frames : List Frame) : Expected → Token → Option (List Frame × Expected)
  | .value, .atom v => some (frames, .next v)
  | .value, .openArray => some (.array [] :: frames, .valueOrEnd)
  | .value, .openObject => some (frames, .keyOrEnd)
  | .valueOrEnd, .atom v => some (frames, .next v)
  | .valueOrEnd, .openArray => some (.array [] :: frames, .valueOrEnd)
  | .valueOrEnd, .openObject => some (frames, .keyOrEnd)
  | .valueOrEnd, .closeArray =>
      match frames with
      | .array _ :: outer => some (outer, .next (.array []))
      | _ => none
  | .keyOrEnd, .closeObject => some (frames, .next (.object []))
  | .keyOrEnd, .atom v => (asKey? v).map fun key => (frames, .colon [] key)
  | .key members, .atom v => (asKey? v).map fun key => (frames, .colon members key)
  | .colon members key, .colon => some (.object members key :: frames, .value)
  | .next v, .comma =>
      match frames with
      | .array items :: outer => some (.array (v :: items) :: outer, .value)
      | .object members key :: outer => some (outer, .key (⟨key, v⟩ :: members))
      | [] => none
  | .next v, .closeArray =>
      match frames with
      | .array items :: outer => some (outer, .next (.array (v :: items).reverse))
      | _ => none
  | .next v, .closeObject =>
      match frames with
      | .object members key :: outer => some (outer, .next (.object (⟨key, v⟩ :: members).reverse))
      | _ => none
  | _, _ => none

/-- Read the rest of the tokens. -/
def readFrom (frames : List Frame) (expected : Expected) : List Token → Option Json
  | [] =>
      match frames, expected with
      | [], .next v => some v
      | _, _ => none
  | t :: ts => do
      let (frames, expected) ← step frames expected t
      readFrom frames expected ts

/-- The value that a text writes, if it writes one. -/
def ofText? (text : String) : Option Json := do
  readFrom [] .value (← tokensFrom 0 text.toList)

end Stylesheet.Json
