/-!
# The size of an automaton

An automaton is drawn up from states, one part of a pattern after the other, and takes memory:

* each state takes 32 bytes;
* a state that branches on a byte takes 8 more bytes for each range of bytes;
* a *choice*, which goes on at several states without taking a byte, takes 4 more bytes for each.

A `Draft` keeps the number of states and the further bytes.  States are numbered from zero, so that
the number of states is also the number of the next state.  The last part has one end, to which the
next part is linked.  If it ends in a choice then this link is one of the choice's.

An automaton may take at most `Draft.limit` bytes.  A draft only grows, so one that is past the
limit stays there, and repeating a part stops early (`Draft.copies`).
-/

namespace Stylesheet.Automaton

/-- An automaton that is being drawn up. -/
structure Draft where
  /-- The number of states. -/
  states : Nat := 0
  /-- The number of bytes beside those of the states as such. -/
  extra : Nat := 0
  /-- Does the last part end in a choice? -/
  endsInChoice : Bool := false
deriving Repr, DecidableEq

namespace Draft

/-- The greatest number of bytes that an automaton may take, ten mebibytes. -/
def limit : Nat := 10 * 1024 * 1024

/-- The number of bytes that an automaton takes. -/
def bytes (d : Draft) : Nat := 32 * d.states + d.extra

/-- Is the automaton within the limit? -/
def fits (d : Draft) : Bool := d.bytes ≤ limit

/-- Add states of no special kind. -/
def addStates (n : Nat) (d : Draft) : Draft := { d with states := d.states + n }

/-- Add a state that branches on a byte with some ranges of bytes. -/
def addBranching (ranges : Nat) (d : Draft) : Draft :=
  { d with states := d.states + 1, extra := d.extra + 8 * ranges }

/-- Add links from choices. -/
def addLinks (n : Nat) (d : Draft) : Draft := { d with extra := d.extra + 4 * n }

/-- Link the end of the last part to what comes next. -/
def link (d : Draft) : Draft :=
  if d.endsInChoice then { d.addLinks 1 with endsInChoice := false } else d

/-- End the last part in a choice. -/
def endInChoice (d : Draft) : Draft := { d with endsInChoice := true }

/-- Add a part `n` times, each linked to the one before, as long as the automaton is within the
limit. -/
def copies (part : Draft → Draft) : Nat → Draft → Draft
  | 0, d => d
  | n + 1, d => if d.fits then copies part n (part d.link) else d

end Draft

end Stylesheet.Automaton
