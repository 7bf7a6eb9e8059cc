import Stylesheet.Text
import Stylesheet.Token

/-!
# Cutting a text into tokens

`tokenize` cuts a text into tokens.  It looks at the first character and a few after it, decides
the kind of the token that starts there and how many characters it takes, and goes on after it.
The scanners below are therefore *length functions*: `nameLength cs` is how many characters of `cs`
belong to a name, `escapeLength cs` how many belong to an escape whose backslash came just before,
and so on.  A token's text is the slice of that length, so nothing is lost (`textOf_tokenize`).
Where a scanner has to pass over several characters at once, it counts them off (`skip`), so every
recursion is on the text itself.

The rules, in the order in which `scan` tries them:

* a run of blanks is one token; the blanks are space, tab, line feed, carriage return, form feed;
* `/*` starts a comment, which ends after the next `*/` or at the end of the text;
* a quote starts a string, which ends after the same quote or at the end of the text, and is
  malformed when a line ends first; a backslash before the end of a line continues the string;
* a digit, or a sign or point before a digit, starts a number: digits, a fraction, an exponent,
  and then a percent sign or a unit;
* a name (letters, digits, `_`, `-`, non-ASCII characters and escapes) is an identifier, and with
  a `(` right after it a function; a name that reads `url` starts an unquoted url unless a quote
  follows the parenthesis;
* `@` and `#` before a name take it along; `<!--` and `-->` are marks;
* every other character stands alone.

An escape is a backslash with one character, or with up to six hexadecimal digits and one blank
after them.
-/

namespace Stylesheet.Token

open Stylesheet.Text (headIs hexLength hexNumber isHexDigit scalar?)

/-! ## Character classes -/

/-- A character that ends a line. -/
def isNewline (c : Char) : Bool := c == '\n' || c == '\r' || c == '\x0c'

/-- A blank between tokens. -/
def isBlank (c : Char) : Bool := c == ' ' || c == '\t' || isNewline c

/-- A character that a name can start with. -/
def isNameStart (c : Char) : Bool := c.isAlpha || c == '_' || c == '\x00' || 0x80 ≤ c.toNat

/-- A character that a name can go on with. -/
def isNameChar (c : Char) : Bool := isNameStart c || c.isDigit || c == '-'

/-- A control character that an unquoted url may not hold. -/
def isUnprintable (c : Char) : Bool :=
  let n := c.toNat
  (0x01 ≤ n && n ≤ 0x08) || n == 0x0B || (0x0E ≤ n && n ≤ 0x1F) || n == 0x7F

/-! ## Escapes and names -/

/-- Length of the one blank that may end an escape; a carriage return with its line feed is one. -/
def blankLength : List Char → Nat
  | '\r' :: '\n' :: _ => 2
  | c :: _ => if isBlank c then 1 else 0
  | [] => 0

/-- Length of an escape whose backslash came just before. -/
def escapeLength : List Char → Nat
  | [] => 0
  | c :: cs =>
      if isHexDigit c then
        let digits := 1 + hexLength 5 cs
        digits + blankLength ((c :: cs).drop digits)
      else 1

/-- The character that an escape stands for; its backslash came just before. -/
def escapeValue : List Char → Char
  | [] => '\uFFFD'
  | c :: cs =>
      if isHexDigit c then
        match hexNumber (c :: cs.take (hexLength 5 cs)) with
        | 0 => '\uFFFD'
        | n => (scalar? n).getD '\uFFFD'
      else if c == '\x00' then '\uFFFD'
      else c

/-- Length of a name, not counting the `skip` characters of an escape that is already known to
belong to it. -/
def nameLengthFrom : (skip : Nat) → List Char → Nat
  | _, [] => 0
  | skip + 1, _ :: cs => 1 + nameLengthFrom skip cs
  | 0, c :: cs =>
      if isNameChar c then 1 + nameLengthFrom 0 cs
      else if c == '\\' && !headIs isNewline cs then 1 + nameLengthFrom (escapeLength cs) cs
      else 0

/-- Length of the name at the start of the text. -/
def nameLength (cs : List Char) : Nat := nameLengthFrom 0 cs

/-- The name that a text writes, with its escapes resolved, passing over `skip` characters of an
escape that has been resolved already. -/
def nameValueFrom : (skip : Nat) → List Char → List Char
  | _, [] => []
  | skip + 1, _ :: cs => nameValueFrom skip cs
  | 0, c :: cs =>
      if c == '\\' then escapeValue cs :: nameValueFrom (escapeLength cs) cs
      else if c == '\x00' then '\uFFFD' :: nameValueFrom 0 cs
      else c :: nameValueFrom 0 cs

/-- The name that a text writes, with its escapes resolved. -/
def nameValue (cs : List Char) : List Char := nameValueFrom 0 cs

/-- Does a name start here?  A backslash does not start one at the end of a line, except after a
hyphen. -/
def startsName : List Char → Bool
  | [] => false
  | '-' :: c :: _ => isNameStart c || c == '-' || c == '\\'
  | '\\' :: cs => !headIs isNewline cs
  | c :: _ => isNameStart c

/-! ## Numbers -/

/-- Length of a run of digits. -/
def digitsLength (cs : List Char) : Nat := (cs.takeWhile Char.isDigit).length

/-- Length of a fraction: a point with at least one digit. -/
def fractionLength : List Char → Nat
  | '.' :: cs => if headIs Char.isDigit cs then 1 + digitsLength cs else 0
  | _ => 0

/-- Length of an exponent: the letter, perhaps a sign, and at least one digit. -/
def exponentLength : List Char → Nat
  | e :: cs =>
      if e == 'e' || e == 'E' then
        match cs with
        | s :: ds =>
            if s.isDigit then 1 + digitsLength cs
            else if (s == '+' || s == '-') && headIs Char.isDigit ds then 2 + digitsLength ds
            else 0
        | [] => 0
      else 0
  | [] => 0

/-- Length of the percent sign or unit after a number. -/
def unitLength (cs : List Char) : Nat :=
  if headIs (· == '%') cs then 1
  else if startsName cs then nameLength cs
  else 0

/-- Length of an unsigned number with its unit. -/
def numberLength (cs : List Char) : Nat :=
  let whole := digitsLength cs
  let fraction := whole + fractionLength (cs.drop whole)
  let exponent := fraction + exponentLength (cs.drop fraction)
  exponent + unitLength (cs.drop exponent)

/-- Does an unsigned number start here? -/
def startsNumber : List Char → Bool
  | '.' :: cs => headIs Char.isDigit cs
  | cs => headIs Char.isDigit cs

/-! ## Strings, comments and urls -/

/-- Kind and length of a string whose opening quote came just before, passing over the `skip`
characters of an escape. -/
def stringFrom (quote : Char) : (skip : Nat) → List Char → Kind × Nat
  | _, [] => (.string false, 0)
  | skip + 1, _ :: cs =>
      let (kind, n) := stringFrom quote skip cs
      (kind, n + 1)
  | 0, c :: cs =>
      if c == quote then (.string true, 1)
      else if isNewline c then (.badString, 0)
      else
        let skip :=
          if c == '\\' then
            if headIs isNewline cs then blankLength cs else escapeLength cs
          else 0
        let (kind, n) := stringFrom quote skip cs
        (kind, n + 1)

/-- The text of a comment whose opening mark came just before, and whether it is closed. -/
def commentBody : List Char → List Char × Bool
  | [] => ([], false)
  | '*' :: '/' :: _ => ([], true)
  | c :: cs =>
      let (body, closed) := commentBody cs
      (c :: body, closed)

/-- Kind and length of a comment whose opening mark came just before. -/
def scanComment (cs : List Char) : Kind × Nat :=
  let (body, closed) := commentBody cs
  (.comment body closed, body.length + if closed then 2 else 0)

/-- Length of what is left of a malformed url: up to and with the next `)` that has no backslash
before it. -/
def badUrlLength : List Char → Nat
  | [] => 0
  | ')' :: _ => 1
  | '\\' :: c :: cs =>
      if c == ')' || c == '\\' then 2 + badUrlLength cs else 1 + badUrlLength (c :: cs)
  | _ :: cs => 1 + badUrlLength cs

/-- Kind and length of the end of a url after a blank: only blanks and the `)` may follow. -/
def urlEnd : List Char → Kind × Nat
  | [] => (.url false, 0)
  | c :: cs =>
      if c == ')' then (.url true, 1)
      else if isBlank c then
        let (kind, n) := urlEnd cs
        (kind, n + 1)
      else (.badUrl, 1 + badUrlLength cs)

/-- Kind and length of the rest of an unquoted url, passing over the `skip` characters of an
escape. -/
def urlFrom : (skip : Nat) → List Char → Kind × Nat
  | _, [] => (.url false, 0)
  | skip + 1, _ :: cs =>
      let (kind, n) := urlFrom skip cs
      (kind, n + 1)
  | 0, c :: cs =>
      if c == ')' then (.url true, 1)
      else if isBlank c then
        let (kind, n) := urlEnd cs
        (kind, n + 1)
      else if isUnprintable c || c == '"' || c == '\'' || c == '(' then
        (.badUrl, 1 + badUrlLength cs)
      else if c == '\\' && headIs isNewline cs then (.badUrl, 1 + badUrlLength cs)
      else
        let (kind, n) := urlFrom (if c == '\\' then escapeLength cs else 0) cs
        (kind, n + 1)

/-- Kind and length of what follows `url(`: an unquoted url, or nothing more of this token when a
quote comes first and the url is an ordinary function. -/
def scanUrl (cs : List Char) : Kind × Nat :=
  let rest := cs.dropWhile isBlank
  if headIs (fun c => c == '"' || c == '\'') rest then (.opening .paren, 0)
  else
    let (kind, n) := urlFrom 0 rest
    (kind, (cs.takeWhile isBlank).length + n)

/-! ## One token -/

/-- Kind and length of an identifier, function or url. -/
def scanIdent (cs : List Char) : Kind × Nat :=
  let n := nameLength cs
  match cs.drop n with
  | '(' :: rest =>
      if Text.sameIgnoringCase (nameValue (cs.take n)) ['u', 'r', 'l'] then
        let (kind, m) := scanUrl rest
        (kind, n + 1 + m)
      else (.opening .paren, n + 1)
  | _ => (.ident, n)

/-- Kind and length of the token at the start of a non-empty text. -/
def scan (c : Char) (cs : List Char) : Kind × Nat :=
  if isBlank c then (.blank, 1 + (cs.takeWhile isBlank).length)
  else if c == '/' && headIs (· == '*') cs then
    let (kind, n) := scanComment (cs.drop 1)
    (kind, 2 + n)
  else if c == '"' || c == '\'' then
    let (kind, n) := stringFrom c 0 cs
    (kind, 1 + n)
  else if startsNumber (c :: cs) then (.number, numberLength (c :: cs))
  else if (c == '+' || c == '-') && startsNumber cs then (.number, 1 + numberLength cs)
  else if ['-', '-', '>'].isPrefixOf (c :: cs) then (.legacyMark, 3)
  else if ['<', '!', '-', '-'].isPrefixOf (c :: cs) then (.legacyMark, 4)
  else if startsName (c :: cs) then scanIdent (c :: cs)
  else if c == '@' && startsName cs then
    let n := nameLength cs
    (.atKeyword (nameValue (cs.take n)), 1 + n)
  else if c == '#' && (startsName cs || headIs (fun d => d.isDigit || d == '-') cs) then
    (.hash, 1 + nameLength cs)
  else
    match c with
    | ';' => (.semicolon, 1)
    | '(' => (.opening .paren, 1)
    | '[' => (.opening .square, 1)
    | '\x7b' => (.opening .curly, 1)
    | ')' => (.closing .paren, 1)
    | ']' => (.closing .square, 1)
    | '\x7d' => (.closing .curly, 1)
    | _ => (.delim, 1)

/-! ## All tokens -/

/-- The tokens of a text after its first `skip` characters, which belong to a token that is already
cut.  Every token takes its first character and as many more as `scan` says. -/
def tokenizeFrom : (skip : Nat) → List Char → List Token
  | _, [] => []
  | skip + 1, _ :: cs => tokenizeFrom skip cs
  | 0, c :: cs =>
      let (kind, n) := scan c cs
      ⟨kind, c :: cs.take (n - 1)⟩ :: tokenizeFrom (n - 1) cs

/-- The tokens of a text. -/
def tokenize (cs : List Char) : List Token := tokenizeFrom 0 cs

/-- The tokens put one after the other are the text without what was skipped. -/
theorem textOf_tokenizeFrom (skip : Nat) (cs : List Char) :
    textOf (tokenizeFrom skip cs) = cs.drop skip := by
  induction cs generalizing skip with
  | nil => simp [tokenizeFrom]
  | cons c cs ih =>
      cases skip with
      | zero => simp [tokenizeFrom, ih]
      | succ skip => simp [tokenizeFrom, ih]

/-- The tokens of a text put one after the other are the text. -/
@[simp] theorem textOf_tokenize (cs : List Char) : textOf (tokenize cs) = cs := by
  simp [tokenize, textOf_tokenizeFrom]

/-- Skipping characters is reading the text without them. -/
theorem tokenizeFrom_eq_tokenize_drop (skip : Nat) (cs : List Char) :
    tokenizeFrom skip cs = tokenize (cs.drop skip) := by
  induction cs generalizing skip with
  | nil => simp [tokenize, tokenizeFrom]
  | cons c cs ih =>
      cases skip with
      | zero => rfl
      | succ skip => simp [tokenizeFrom, ih]

/-- Every token has at least one character. -/
theorem text_ne_nil_of_mem_tokenizeFrom {t : Token} {skip : Nat} {cs : List Char}
    (h : t ∈ tokenizeFrom skip cs) : t.text ≠ [] := by
  induction cs generalizing skip with
  | nil => simp [tokenizeFrom] at h
  | cons c cs ih =>
      cases skip with
      | zero =>
          simp only [tokenizeFrom, List.mem_cons] at h
          rcases h with rfl | h
          · simp
          · exact ih h
      | succ skip => exact ih h

end Stylesheet.Token
