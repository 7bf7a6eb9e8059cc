import Stylesheet.Token

/-!
# Component values

A *component value* is a token, or a block: an opening bracket, the component values in it, and
the bracket that closes it.  `group` nests a sequence of tokens into component values in one pass,
with a stack of the blocks that are still open.

* An opening bracket starts a block inside the current one.
* A closing bracket ends the current block when it is of the same kind.  Otherwise it is an
  ordinary token of the current block: it never reaches through to an outer one.
* At the end of the tokens all open blocks end, without a closing bracket.

Grouping loses nothing (`textOf_group`).
-/

namespace Stylesheet

/-- A token, or a bracketed block of component values. -/
inductive Component where
  /-- A token that opens no block. -/
  | token (t : Token)
  /-- A block: the token that opens it with its bracket, its contents, and the token that closes
  it unless the text ended first. -/
  | block (bracket : Bracket) (opener : Token) (body : List Component) (closer : Option Token)

namespace Component

mutual

/-- The characters of a component value. -/
def text : Component → List Char
  | .token t => t.text
  | .block _ opener body closer =>
      opener.text ++ textOf body ++ (closer.elim [] Token.text)

/-- The characters of a sequence of component values. -/
def textOf : List Component → List Char
  | [] => []
  | c :: cs => text c ++ textOf cs

end

/-! ## Grouping -/

/-- A block that is still open: its bracket, the token that opened it, and the component values
that came before it in the enclosing block, last first. -/
structure Frame where
  /-- The kind of bracket that closes the block. -/
  bracket : Bracket
  /-- The token that opened the block. -/
  opener : Token
  /-- What came before the block, last first. -/
  before : List Component

/-- End all open blocks. `current` holds the contents of the innermost one, last first. -/
def closeAll (current : List Component) : List Frame → List Component
  | [] => current.reverse
  | f :: frames =>
      closeAll (.block f.bracket f.opener current.reverse none :: f.before) frames

/-- Nest the tokens, given the contents of the innermost open block, last first, and the open
blocks, innermost first. -/
def groupFrom : List Token → (current : List Component) → List Frame → List Component
  | [], current, frames => closeAll current frames
  | t :: ts, current, frames =>
      match t.kind with
      | .opening bracket => groupFrom ts [] (⟨bracket, t, current⟩ :: frames)
      | .closing bracket =>
          match frames with
          | [] => groupFrom ts (.token t :: current) []
          | f :: outer =>
              if f.bracket = bracket then
                groupFrom ts
                  (.block bracket f.opener current.reverse (some t) :: f.before) outer
              else groupFrom ts (.token t :: current) (f :: outer)
      | _ => groupFrom ts (.token t :: current) frames

/-- The component values of a sequence of tokens. -/
def group (tokens : List Token) : List Component := groupFrom tokens [] []

/-! ## Nothing is lost -/

theorem textOf_append (a b : List Component) : textOf (a ++ b) = textOf a ++ textOf b := by
  induction a with
  | nil => simp [textOf]
  | cons c cs ih => simp [textOf, ih]

/-- The characters that the open blocks and what came before them hold. -/
def openText : List Frame → List Char
  | [] => []
  | f :: frames => openText frames ++ textOf f.before.reverse ++ f.opener.text

theorem textOf_closeAll (current : List Component) (frames : List Frame) :
    textOf (closeAll current frames) = openText frames ++ textOf current.reverse := by
  induction frames generalizing current with
  | nil => simp [closeAll, openText]
  | cons f frames ih => simp [closeAll, openText, ih, textOf_append, textOf, text]

theorem textOf_groupFrom (tokens : List Token) (current : List Component) (frames : List Frame) :
    textOf (groupFrom tokens current frames) =
      openText frames ++ textOf current.reverse ++ Token.textOf tokens := by
  induction tokens generalizing current frames with
  | nil => simp [groupFrom, textOf_closeAll]
  | cons t ts ih =>
      rw [groupFrom]
      split
      · simp [ih, openText, textOf]
      · split
        · simp [ih, openText, textOf_append, textOf, text]
        · split <;> simp [ih, openText, textOf_append, textOf, text]
      · simp [ih, textOf_append, textOf, text]

/-- The component values put one after the other have the characters of the tokens. -/
theorem textOf_group (tokens : List Token) : textOf (group tokens) = Token.textOf tokens := by
  simp [group, textOf_groupFrom, openText, textOf]

end Component

end Stylesheet
