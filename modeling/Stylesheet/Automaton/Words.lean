import Stylesheet.Automaton.Draft

/-!
# Automata of lists of words

A choice between words is drawn up as a tree that has a path for each word, where words share states
as long as they are equal.

A state of the tree has *tails*: the words that pass it, in order, without what comes before it.  An
empty tail is a word that ends here, and an earlier word has precedence.  So empty tails cut the
tails into *stretches*: a state is a choice between the stretches, which branch on the byte, and the
end of the tree for each cut.  Of several empty tails in front only one counts.
-/

namespace Stylesheet.Automaton

/-- The tails between those that are empty.  Of several empty tails in front only one counts. -/
def stretches (tails : List (List Nat)) : List (List (List Nat)) :=
  let rest := tails.dropWhile List.isEmpty
  let cut := rest.splitOnP List.isEmpty
  if rest.length < tails.length then [] :: cut else cut

/-- The first bytes of a stretch, each once. -/
def firstBytes (stretch : List (List Nat)) : List Nat :=
  (stretch.filterMap List.head?).eraseDups

/-- The tails after a byte. -/
def tailsAfter (byte : Nat) (stretch : List (List Nat)) : List (List Nat) :=
  (stretch.filter fun word => word.head? == some byte).map (·.drop 1)

/-- Add a state of the tree with all states after it.  Tails are shorter than `depth`.  A state at
which all words end is the end of the tree. -/
def Draft.addTree : (depth : Nat) → (tails : List (List Nat)) → Draft → Draft
  | 0, _, d => d
  | depth + 1, tails, d =>
      if tails.all List.isEmpty then d
      else
        let all := stretches tails
        let d := all.foldl (fun d stretch =>
          let bytes := firstBytes stretch
          let d := bytes.foldl (fun d byte => d.addTree depth (tailsAfter byte stretch)) d
          match bytes with
          | [] => d
          | [_] => d.addStates 1
          | _ => d.addBranching bytes.length) d
        let used := (all.filter fun stretch => !stretch.isEmpty).length
        (d.addStates 1).addLinks (used + all.length - 1)

/-- Add a choice between words. -/
def Draft.addWords (words : List (List Nat)) (d : Draft) : Draft :=
  let depth := (words.map List.length).foldl max 0
  (d.addStates 1).addTree (depth + 1) words

/-! ## Examples -/

example : ({} : Draft).addWords [[0x61, 0x62], [0x61], [0x61, 0x63]] =
    { states := 6, extra := 16 } := by decide

end Stylesheet.Automaton
