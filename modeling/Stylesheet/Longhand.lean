import Stylesheet.Node

/-!
# Longhands in a rule body

A shorthand property stands for several longhand properties.  Before longhands can be replaced,
they have to be found in the body of a rule: `locate` gives, for every longhand of a list, the
position of its declaration.  It refuses a body in which one of them is declared twice, since the
earlier declaration may be a fallback for the later one.

`replaceWith` puts a declaration in the place of others.
-/

namespace Stylesheet

namespace Body

/-- How often a property is declared in a body. -/
def count (property : String) (body : List Node) : Nat :=
  body.countP fun node => node.declaration?.any fun d => d.property == property

/-- The position of the last declaration of a property, when the body starts at a position. -/
def findFrom (property : String) : (position : Nat) → List Node → Option Nat
  | _, [] => none
  | position, node :: body =>
      match findFrom property (position + 1) body with
      | some found => some found
      | none =>
          if node.declaration?.any fun d => d.property == property then some position else none

/-- The position of the last declaration of a property. -/
def find? (property : String) (body : List Node) : Option Nat := findFrom property 0 body

/-- The declaration at a position, if there is one. -/
def declarationAt? (body : List Node) (position : Nat) : Option Declaration :=
  body[position]? >>= Node.declaration?

/-- Go through a body from a position on, leave out the nodes at the given positions, and put `d`
before the node at `anchor`, or at the end if there is no such node. -/
def replaceFrom (removed : List Nat) (anchor : Nat) (d : Declaration) :
    (position : Nat) → List Node → List Node
  | position, [] => if position ≤ anchor then [.declaration d] else []
  | position, node :: body =>
      (if position = anchor then [.declaration d] else []) ++
        (if removed.contains position then [] else [node]) ++
        replaceFrom removed anchor d (position + 1) body

/-- The body with `d` put at `anchor` and the nodes at the given positions left out. -/
def replaceWith (body : List Node) (removed : List Nat) (anchor : Nat) (d : Declaration) :
    List Node :=
  replaceFrom removed anchor d 0 body

end Body

/-- Where the longhands of a list are declared in a body: one position or none for each. -/
structure Slots where
  /-- The positions, in the order of the longhands. -/
  positions : List (Option Nat)
deriving DecidableEq, Repr

namespace Slots

/-- Where each longhand is declared, unless one of them is declared more than once.  A name that
is listed twice counts where it is listed first. -/
def locate (body : List Node) (longhands : List String) : Option Slots :=
  if longhands.all fun name => Body.count name body ≤ 1 then
    some ⟨longhands.zipIdx.map fun (name, i) =>
      if longhands.idxOf name = i then Body.find? name body else none⟩
  else none

/-- How many longhands are declared. -/
def present (slots : Slots) : Nat := slots.positions.countP Option.isSome

/-- The positions of the declared longhands in the order of the body. -/
def indices (slots : Slots) : List Nat :=
  (slots.positions.filterMap id).mergeSort fun a b => a ≤ b

/-- The position of the `i`-th longhand. -/
def slot? (slots : Slots) (i : Nat) : Option Nat := (slots.positions[i]?).join

/-- The value of the `i`-th longhand. -/
def value? (slots : Slots) (body : List Node) (i : Nat) : Option String := do
  let position ← slots.slot? i
  let d ← Body.declarationAt? body position
  return d.value

/-- The values of all longhands in their order. -/
def values (slots : Slots) (body : List Node) : List (Option String) :=
  (List.range slots.positions.length).map (slots.value? body)

/-- The importance that all declared longhands share, if they share one. -/
def sharedImportance? (slots : Slots) (body : List Node) : Option Bool :=
  match (slots.indices.filterMap (Body.declarationAt? body)).map Declaration.important with
  | [] => none
  | first :: others => if others.all (· == first) then some first else none

/-- Does a declaration that is not one of the longhands, and that `interferes` names, stand before
the last of them? -/
def hasInterference (slots : Slots) (body : List Node) (interferes : String → Bool) : Bool :=
  match slots.indices.getLast? with
  | none => false
  | some last =>
      (body.take last).zipIdx.any fun (node, position) =>
        !slots.indices.contains position && node.declaration?.any fun d => interferes d.property

end Slots

end Stylesheet
