import Stylesheet.Automaton.Draft
import Stylesheet.Pattern.CharSet

/-!
# Automata of sets of characters

An automaton takes bytes, and a character past ASCII has several of them.  A set of characters is
cut into sequences of byte ranges (`Unicode.sequences`), and the sequences share states.

* An ASCII set is a state that branches on the byte, and the state after it.
* Forwards, the sequences share their starts and their ends.  They come in order, so only the last
  one can share its start with the next, and it is kept open as a list of `Open` states.  As soon as
  an open state cannot change any more it is closed: if a state with the same branches is known then
  that one is used, else a state is added.
* Backwards, the sequences share their last states in the direction of travel, the ones for their
  first bytes.  Each state takes one range, and is known by the range and the state after it.

Known states are kept in a table with few slots (`Slots`): a state is known as long as no other one
falls into its slot.  The slot is a hash of the state, an FNV-1a hash by numbers.
-/

namespace Stylesheet.Automaton

open Stylesheet.Unicode (ByteRange)

/-! ## Known states -/

/-- A table of entries by slot, as a search tree. -/
inductive Slots (α : Type) where
  /-- No entry. -/
  | none
  /-- An entry between those with lesser and those with greater slots. -/
  | entry (lesser : Slots α) (slot : Nat) (value : α) (greater : Slots α)

/-- The entry in a slot. -/
def Slots.get? {α : Type} (slot : Nat) : Slots α → Option α
  | .none => Option.none
  | .entry lesser s value greater =>
      if slot < s then lesser.get? slot
      else if s < slot then greater.get? slot
      else some value

/-- Put an entry into a slot, in place of the one that is there. -/
def Slots.put {α : Type} (slot : Nat) (value : α) : Slots α → Slots α
  | .none => .entry .none slot value .none
  | .entry lesser s old greater =>
      if slot < s then .entry (lesser.put slot value) s old greater
      else if s < slot then .entry lesser s old (greater.put slot value)
      else .entry lesser slot value greater

/-- Mix a number into a hash. -/
def mix (hash : UInt64) (n : Nat) : UInt64 := (hash ^^^ n.toUInt64) * 1099511628211

/-- The slot of some numbers, out of a number of slots. -/
def slotOf (numbers : List Nat) (slots : UInt64) : Nat :=
  (numbers.foldl mix 14695981039346656037 % slots).toNat

/-! ## Forwards -/

/-- A range of bytes and the state after it. -/
structure Branch where
  /-- The range. -/
  range : ByteRange
  /-- The number of the state after it. -/
  next : Nat
deriving DecidableEq

/-- A state that may still get branches. -/
structure Open where
  /-- The branches so far, last first. -/
  branches : List Branch := []
  /-- The range of the last branch, whose next state is open too. -/
  last : Option ByteRange := none

/-- An automaton and its states that are known by their branches. -/
structure Forward where
  /-- The automaton. -/
  draft : Draft
  /-- The known states. -/
  known : Slots (List Branch × Nat) := .none

/-- The state with some branches, last first: one that is known, or else a new one. -/
def Forward.state (f : Forward) (branches : List Branch) : Nat × Forward :=
  let numbers := branches.reverse.flatMap fun b => [b.range.first, b.range.last, b.next]
  let slot := slotOf numbers 10000
  let new := f.draft.states
  let added : Forward :=
    ⟨f.draft.addBranching branches.length, f.known.put slot (branches, new)⟩
  match f.known.get? slot with
  | some (old, number) => if old == branches then (number, f) else (new, added)
  | none => (new, added)

/-- The branches of an open state whose last branch goes on at a given state. -/
def Open.close (o : Open) (next : Nat) : List Branch :=
  match o.last with
  | some range => ⟨range, next⟩ :: o.branches
  | none => o.branches

/-- Close open states, each of which comes before the next one; `target` is the state after all of
them.  Gives the number of the first. -/
def closeAll (target : Nat) : List Open → Forward → Nat × Forward
  | [], f => (target, f)
  | o :: rest, f =>
      let (next, f) := closeAll target rest f
      f.state (o.close next)

/-- Add a sequence after those before it, given the open states. -/
def addSequence (target : Nat) : List Open → List ByteRange → Forward → List Open × Forward
  | [], ranges, f => (ranges.map fun range => { last := some range }, f)
  | o :: rest, [], f => (o :: rest, f)
  | o :: rest, range :: ranges, f =>
      if o.last == some range then
        let (rest, f) := addSequence target rest ranges f
        (o :: rest, f)
      else
        let (next, f) := closeAll target rest f
        let o : Open := { branches := o.close next, last := some range }
        (o :: ranges.map fun range => { last := some range }, f)

/-- Add the sequences of a set, forwards. -/
def Draft.addForward (sequences : List (List ByteRange)) (d : Draft) : Draft :=
  let target := d.states
  let start : List Open × Forward := ([{}], { draft := d.addStates 1 })
  let (opened, f) := sequences.foldl (fun (os, f) s => addSequence target os s f) start
  (closeAll target opened f).2.draft

/-! ## Backwards -/

/-- An automaton and its states that are known by their range and the state after them. -/
structure Backward where
  /-- The automaton. -/
  draft : Draft
  /-- The known states. -/
  known : Slots (Branch × Nat) := .none

/-- The state with a branch: one that is known, or else a new one. -/
def Backward.state (b : Backward) (branch : Branch) : Nat × Backward :=
  let slot := slotOf [branch.next, branch.range.first, branch.range.last] 1000
  let new := b.draft.states
  let added : Backward := ⟨b.draft.addStates 1, b.known.put slot (branch, new)⟩
  match b.known.get? slot with
  | some (old, number) => if old == branch then (number, b) else (new, added)
  | none => (new, added)

/-- Add a sequence that ends at a state. -/
def Backward.addSequence (target : Nat) (b : Backward) (ranges : List ByteRange) : Backward :=
  let (_, b) := ranges.foldl (fun (next, b) range => b.state ⟨range, next⟩) (target, b)
  { b with draft := b.draft.addLinks 1 }

/-- Add the sequences of a set, backwards: a choice between them, which meet in a last state. -/
def Draft.addBackward (sequences : List (List ByteRange)) (d : Draft) : Draft :=
  (sequences.foldl (Backward.addSequence (d.states + 1)) { draft := d.addStates 2 }).draft

/-! ## Sets -/

/-- Add one character of a set. -/
def Draft.addSet (backwards : Bool) (set : CharSet) (d : Draft) : Draft :=
  if set.isAscii then (d.addStates 1).addBranching set.ranges.length
  else
    let sequences := set.ranges.flatMap Unicode.sequences
    if backwards then d.addBackward sequences else d.addForward sequences

/-! ## Examples -/

example : ((({} : Draft).addSet false .any).bytes, (({} : Draft).addSet true .any).bytes) =
    (416, 964) := by decide +kernel

end Stylesheet.Automaton
