import Stylesheet.Node

/-!
# Character set

A stylesheet may say in which character set it is written.  `strip` removes all such directives at
any depth, and `declare` puts the one for UTF-8 in front.
-/

namespace Stylesheet.Charset

/-- A directive that names the character set. -/
def isCharset : Node → Bool
  | .statement name _ => name == "charset"
  | .atRule name _ _ => name == "charset"
  | _ => false

/-- The nodes without the directives that name the character set. -/
def strip (nodes : List Node) : List Node := Node.retain (fun node => !isCharset node) nodes

/-- How many directives `strip` removes. -/
def strippedCount (nodes : List Node) : Nat :=
  (Node.examined (fun node => !isCharset node) nodes).countP isCharset

/-- The directive for UTF-8. -/
def utf8 : Node := .statement "charset" "\"UTF-8\""

/-- The nodes with the directive for UTF-8 in front. -/
def declare (nodes : List Node) : List Node := utf8 :: nodes

end Stylesheet.Charset
