import Stylesheet.Text

/-!
# JSON values

A JSON value as it is written: the members of an object keep their order and repetitions, and a
number keeps its digits.  A string may be written with escapes that form no text, namely half of a
surrogate pair; such a string is `unpaired`, and as a key it is missing.

`Json.render` writes a value without spaces.
-/

namespace Stylesheet

mutual

/-- A JSON value. -/
inductive Json where
  /-- `null`. -/
  | null
  /-- `true` or `false`. -/
  | bool (b : Bool)
  /-- The number `mantissa · 10 ^ exponent`. -/
  | number (mantissa exponent : Int)
  /-- A string. -/
  | string (s : String)
  /-- A string that is no text. -/
  | unpaired
  /-- An array. -/
  | array (items : List Json)
  /-- An object. -/
  | object (members : List Member)

/-- A member of an object. -/
structure Member where
  /-- The key, unless it is no text. -/
  key : Option String
  /-- The value. -/
  value : Json

end

namespace Json

/-! ## Measures -/

mutual

/-- How deep arrays and objects are nested. -/
def depth : Json → Nat
  | .array items => depthItems items + 1
  | .object members => depthMembers members + 1
  | .null => 0
  | .bool _ => 0
  | .number _ _ => 0
  | .string _ => 0
  | .unpaired => 0
termination_by structural j => j

/-- The greatest depth of some values. -/
def depthItems : List Json → Nat
  | [] => 0
  | j :: rest => max (depth j) (depthItems rest)
termination_by structural items => items

/-- The greatest depth of some members. -/
def depthMembers : List Member → Nat
  | [] => 0
  | m :: rest => max (depthMember m) (depthMembers rest)
termination_by structural members => members

/-- The depth of a member. -/
def depthMember : Member → Nat
  | ⟨_, value⟩ => depth value
termination_by structural m => m

end

/-- How many digits a number has. -/
def digitCount (n : Nat) : Nat := (Nat.toDigits 10 n).length

/-- Does a double hold the number `mantissa · 10 ^ exponent`, rounded, without becoming infinite? -/
def isFinite (mantissa exponent : Int) : Bool :=
  let m := mantissa.natAbs
  let bound := Nat.pow 2 1024 - Nat.pow 2 970
  if m = 0 then true
  else if digitCount m + exponent > 310 then false
  else if digitCount m + exponent < 300 then true
  else if 0 ≤ exponent then m * Nat.pow 10 exponent.toNat < bound
  else m < bound * Nat.pow 10 (-exponent).toNat

mutual

/-- Are all strings text and all numbers finite? -/
def isSound : Json → Bool
  | .array items => soundItems items
  | .object members => soundMembers members
  | .number mantissa exponent => isFinite mantissa exponent
  | .unpaired => false
  | .null => true
  | .bool _ => true
  | .string _ => true
termination_by structural j => j

/-- `isSound` of all values. -/
def soundItems : List Json → Bool
  | [] => true
  | j :: rest => isSound j && soundItems rest
termination_by structural items => items

/-- `isSound` of all members, with their keys. -/
def soundMembers : List Member → Bool
  | [] => true
  | m :: rest => soundMember m && soundMembers rest
termination_by structural members => members

/-- `isSound` of a member, with its key. -/
def soundMember : Member → Bool
  | ⟨key, value⟩ => key.isSome && isSound value
termination_by structural m => m

end

/-! ## Writing -/

/-- A character in a string: quotes, backslashes and control characters are escaped. -/
def renderChar (c : Char) : List Char :=
  if c == '"' then ['\\', '"']
  else if c == '\\' then ['\\', '\\']
  else if c.toNat < 0x20 then
    ['\\', 'u', '0', '0', Nat.digitChar (c.toNat / 16), Nat.digitChar (c.toNat % 16)]
  else [c]

/-- A string in quotes. -/
def renderString (s : String) : List Char := '"' :: s.toList.flatMap renderChar ++ ['"']

/-- An integer in decimal digits. -/
def renderInt (n : Int) : List Char :=
  if n < 0 then '-' :: Nat.toDigits 10 n.natAbs else Nat.toDigits 10 n.natAbs

/-- A number with its exponent. -/
def renderNumber (mantissa exponent : Int) : List Char :=
  if exponent = 0 then renderInt mantissa else renderInt mantissa ++ 'e' :: renderInt exponent

/-- A string that is no text: half of a surrogate pair. -/
def renderUnpaired : List Char := "\"\\ud800\"".toList

mutual

/-- A value without spaces. -/
def renderChars : Json → List Char
  | .null => "null".toList
  | .bool true => "true".toList
  | .bool false => "false".toList
  | .number mantissa exponent => renderNumber mantissa exponent
  | .string s => renderString s
  | .unpaired => renderUnpaired
  | .array items => '[' :: renderItems items ++ [']']
  | .object members => '\x7b' :: renderMembers members ++ ['\x7d']
termination_by structural j => j

/-- Values with commas between them. -/
def renderItems : List Json → List Char
  | [] => []
  | j :: rest => renderChars j ++ (if rest.isEmpty then [] else [',']) ++ renderItems rest
termination_by structural items => items

/-- Members with commas between them. -/
def renderMembers : List Member → List Char
  | [] => []
  | m :: rest => renderMember m ++ (if rest.isEmpty then [] else [',']) ++ renderMembers rest
termination_by structural members => members

/-- A key, a colon and a value. -/
def renderMember : Member → List Char
  | ⟨key, value⟩ => key.elim renderUnpaired renderString ++ ':' :: renderChars value
termination_by structural m => m

end

/-- The text of a value. -/
def render (j : Json) : String := .ofList (renderChars j)

end Json

end Stylesheet
