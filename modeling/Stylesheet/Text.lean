/-!
# Text

Every part of a stylesheet that is not structure is plain text: preludes, values, names.  This
module holds the few operations on characters that all of them share.

* `isSpace` is the Unicode property White_Space, 25 code points.  Trimming uses it everywhere.
  The tokens of a stylesheet use the smaller set of five blanks in `Stylesheet.Token`.
* Letter case is ASCII case.  `Char.toLower` changes `A` to `Z` and nothing else, which is what a
  stylesheet asks for in property names, at-keywords and tags.
* Texts are compared and sorted by code point.

The operations work on lists of characters, so that they recurse on the data.  Those with a name
in `String` terms (`strip`, `lowercase`, …) are the same operations on `String`.
-/

namespace Stylesheet.Text

/-! ## Characters -/

/-- The Unicode property White_Space. -/
def isSpace (c : Char) : Bool :=
  let n := c.toNat
  (0x09 ≤ n && n ≤ 0x0D) || n == 0x20 || n == 0x85 || n == 0xA0 || n == 0x1680 ||
    (0x2000 ≤ n && n ≤ 0x200A) || n == 0x2028 || n == 0x2029 || n == 0x202F || n == 0x205F ||
    n == 0x3000

/-- An ASCII hexadecimal digit. -/
def isHexDigit (c : Char) : Bool :=
  c.isDigit || ('a' ≤ c && c ≤ 'f') || ('A' ≤ c && c ≤ 'F')

/-- The value of a hexadecimal digit, zero for any other character. -/
def hexValue (c : Char) : Nat :=
  if c.isDigit then c.toNat - '0'.toNat
  else if 'a' ≤ c && c ≤ 'f' then c.toNat - 'a'.toNat + 10
  else if 'A' ≤ c && c ≤ 'F' then c.toNat - 'A'.toNat + 10
  else 0

/-- Length of a run of at most `n` hexadecimal digits. -/
def hexLength : Nat → List Char → Nat
  | 0, _ => 0
  | _ + 1, [] => 0
  | n + 1, c :: cs => if isHexDigit c then 1 + hexLength n cs else 0

/-- The number that a run of hexadecimal digits writes. -/
def hexNumber (digits : List Char) : Nat :=
  digits.foldl (fun n c => n * 16 + hexValue c) 0

/-- The character of a code point, if there is one: surrogates and numbers past the last plane
have none. -/
def scalar? (n : Nat) : Option Char :=
  if n.isValidChar then some (Char.ofNat n) else none

/-- Does the text start with a character of a class? -/
def headIs (p : Char → Bool) : List Char → Bool
  | [] => false
  | c :: _ => p c

/-! ## Trimming and case -/

/-- The text without its leading spaces. -/
def trimStart (cs : List Char) : List Char := cs.dropWhile isSpace

/-- The text without its trailing spaces. -/
def trimEnd (cs : List Char) : List Char := (cs.reverse.dropWhile isSpace).reverse

/-- The text without leading and trailing spaces. -/
def trim (cs : List Char) : List Char := trimEnd (trimStart cs)

/-- The text in ASCII lower case. -/
def lower (cs : List Char) : List Char := cs.map Char.toLower

/-- Two texts that differ in ASCII case only. -/
def sameIgnoringCase (a b : List Char) : Bool := lower a == lower b

/-- A text of spaces only, possibly empty. -/
def isBlank (cs : List Char) : Bool := cs.all isSpace

/-! ## Cutting -/

/-- The text before and after the first `c`, if there is one. -/
def splitFirst? (c : Char) : List Char → Option (List Char × List Char)
  | [] => none
  | x :: xs =>
      if x = c then some ([], xs)
      else (splitFirst? c xs).map fun (before, after) => (x :: before, after)

/-- The text before and after the last `c`, if there is one. -/
def splitLast? (c : Char) : List Char → Option (List Char × List Char)
  | [] => none
  | x :: xs =>
      match splitLast? c xs with
      | some (before, after) => some (x :: before, after)
      | none => if x = c then some ([], xs) else none

/-- Put a character in front of the first of some pieces. -/
def consFirst (c : Char) : List (List Char) → List (List Char)
  | [] => [[c]]
  | piece :: pieces => (c :: piece) :: pieces

/-- Does `word` occur in the text? -/
def occurs (word : List Char) : List Char → Bool
  | [] => word.isEmpty
  | c :: cs => word.isPrefixOf (c :: cs) || occurs word cs

/-- The maximal runs of characters that are not spaces. -/
def words (cs : List Char) : List (List Char) := (cs.splitOnP isSpace).filter fun w => !w.isEmpty

/-! ## The same on strings -/

/-- `trim` on strings. -/
def strip (s : String) : String := .ofList (trim s.toList)

/-- `lower` on strings. -/
def lowercase (s : String) : String := .ofList (lower s.toList)

/-- `isBlank` on strings. -/
def blank (s : String) : Bool := isBlank s.toList

/-- Does the string start with `head`? -/
def startsWith (head s : String) : Bool := head.toList.isPrefixOf s.toList

/-- Does the string end with `tail`? -/
def endsWith (tail s : String) : Bool := tail.toList.isSuffixOf s.toList

/-- The strings one after the other with `sep` between neighbours. -/
def join (sep : String) : List String → String
  | [] => ""
  | [s] => s
  | s :: t :: rest => s ++ sep ++ join sep (t :: rest)

/-- The strings in the order of their code points, without repetitions. -/
def sortedSet (strings : List String) : List String :=
  (strings.mergeSort fun a b => a ≤ b).eraseDups

/-! ## Small facts -/

theorem mem_sortedSet {s : String} {strings : List String} :
    s ∈ sortedSet strings ↔ s ∈ strings := by
  rw [sortedSet, List.mem_eraseDups, List.mem_mergeSort]

theorem lower_append (a b : List Char) : lower (a ++ b) = lower a ++ lower b := by
  simp [lower]

/-- What `splitFirst?` cuts is the whole text. -/
theorem splitFirst?_eq_some {c : Char} {cs before after : List Char}
    (h : splitFirst? c cs = some (before, after)) : cs = before ++ c :: after := by
  induction cs generalizing before with
  | nil => simp [splitFirst?] at h
  | cons x xs ih =>
      by_cases hx : x = c
      · simp only [splitFirst?, hx, if_true, Option.some.injEq, Prod.mk.injEq] at h
        simp [hx, ← h.1, ← h.2]
      · simp only [splitFirst?, hx, if_false, Option.map_eq_some_iff] at h
        obtain ⟨⟨b, a⟩, hs, hp⟩ := h
        simp only [Prod.mk.injEq] at hp
        obtain ⟨rfl, rfl⟩ := hp
        simp [ih hs]

/-- What `splitLast?` cuts is the whole text. -/
theorem splitLast?_eq_some {c : Char} {cs before after : List Char}
    (h : splitLast? c cs = some (before, after)) : cs = before ++ c :: after := by
  induction cs generalizing before with
  | nil => simp [splitLast?] at h
  | cons x xs ih =>
      rw [splitLast?] at h
      split at h
      · next b a hs =>
          simp only [Option.some.injEq, Prod.mk.injEq] at h
          obtain ⟨rfl, rfl⟩ := h
          simp [ih hs]
      · split at h
        · next hx =>
            simp only [Option.some.injEq, Prod.mk.injEq] at h
            simp [hx, ← h.1, ← h.2]
        · simp at h

end Stylesheet.Text
