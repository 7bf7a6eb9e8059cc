import Stylesheet.AllowList
import Stylesheet.Node
import Stylesheet.Selector.Reader

/-!
# Purging

`Purge.purge` removes from a stylesheet what an allow-list does not know.

A branch of a selector is *allowed* by a verdict that goes through its parts from left to right.  A
tag, id, class or `*` that is not in use makes the verdict negative, and one that is in use leaves
it.  A pseudo-class with a selector list sets the verdict anew, whatever came before: it is positive
when one of its branches is allowed.  So `.unknown:is(.known)` is allowed and `:is(.known).unknown`
is not.  Other parts do not count, and a branch without any part that counts is allowed.

A rule keeps those of its branches that are allowed, and goes when none is.  Rules with a blank
selector stay, and so do rules whose selector cannot be read, with a warning.  The rules inside a
rule that stays are purged too; those in keyframes are not, since they have no selectors.
-/

namespace Stylesheet.Purge

open Stylesheet.Selector (Part Branch)

/-! ## Verdicts -/

mutual

/-- The verdict after the parts of a branch, given the verdict before them; none means that no part
counted yet. -/
def verdict (allow : AllowList) (sofar : Option Bool) : List Part → Option Bool
  | [] => sofar
  | part :: parts => verdict allow (verdictAt allow sofar part) parts
termination_by structural parts => parts

/-- The verdict after one part. -/
def verdictAt (allow : AllowList) (sofar : Option Bool) : Part → Option Bool
  | .functional _ branches => some (anyAllowed allow branches)
  | .tag name => some (sofar.getD true && allow.accepts name)
  | .id name => some (sofar.getD true && allow.accepts ("#" ++ name))
  | .cls name => some (sofar.getD true && allow.accepts ("." ++ name))
  | .universal => some (sofar.getD true && allow.accepts "*")
  | .pseudo _ _ => sofar
  | .combinator _ => sofar
  | .attribute _ => sofar
  | .other _ => sofar
termination_by structural part => part

/-- Is one of some branches allowed? -/
def anyAllowed (allow : AllowList) : List Branch → Bool
  | [] => false
  | branch :: branches => branchAllowed allow branch || anyAllowed allow branches
termination_by structural branches => branches

/-- Is a branch allowed? -/
def branchAllowed (allow : AllowList) : Branch → Bool
  | ⟨_, parts⟩ => (verdict allow none parts).getD true
termination_by structural branch => branch

end

/-- Is a branch with these parts allowed? -/
def isAllowed (allow : AllowList) (parts : List Part) : Bool := (verdict allow none parts).getD true

/-! ## Rules -/

/-- What happens to a rule. -/
inductive Outcome where
  /-- The selector is blank, and the rule stays as it is. -/
  | blank
  /-- The selector cannot be read, and the rule stays as it is. -/
  | unreadable (error : Selector.Error)
  /-- The rule goes, with as many branches. -/
  | removed (branches : Nat)
  /-- The rule stays with another selector and with so many branches less. -/
  | kept (selector : String) (dropped : Nat)

/-- What happens to a rule with a selector. -/
def outcome (allow : AllowList) (selector : String) : Outcome :=
  if Text.blank selector then .blank
  else
    match Selector.readList selector with
    | .error error => .unreadable error
    | .ok branches =>
        let kept := branches.filter (branchAllowed allow)
        let dropped := branches.length - kept.length
        if kept.isEmpty then .removed dropped
        else .kept (Text.join ", " (kept.map Branch.text)) dropped

/-! ## Reports -/

/-- A rule that stays because its selector cannot be read. -/
structure Warning where
  /-- The selector. -/
  selector : String
  /-- Why it cannot be read. -/
  error : Selector.Error

/-- The wording of a warning. -/
def Warning.message (w : Warning) : String :=
  "Error purging selector `" ++ w.selector ++ "`: " ++ w.error.message

/-- What purging did. -/
structure Report where
  /-- Rules that went. -/
  rulesRemoved : Nat := 0
  /-- Branches that went, with those of removed rules. -/
  branchesRemoved : Nat := 0
  /-- Rules with a selector that cannot be read. -/
  rulesSkipped : Nat := 0
deriving DecidableEq, Repr

/-- The sum of two reports. -/
def Report.add (a b : Report) : Report :=
  ⟨a.rulesRemoved + b.rulesRemoved, a.branchesRemoved + b.branchesRemoved,
    a.rulesSkipped + b.rulesSkipped⟩

/-- A purged list of nodes with its report and warnings, in document order. -/
structure Purged where
  /-- The nodes that stay. -/
  nodes : List Node := []
  /-- What was removed. -/
  report : Report := {}
  /-- Selectors that cannot be read. -/
  warnings : List Warning := []

/-- One purged list after another. -/
def Purged.append (a b : Purged) : Purged :=
  ⟨a.nodes ++ b.nodes, a.report.add b.report, a.warnings ++ b.warnings⟩

/-- A block whose contents are purged. -/
def Purged.wrap (f : List Node → Node) (inner : Purged) : Purged :=
  { inner with nodes := [f inner.nodes] }

/-- A rule that stays, with its purged contents, and what was counted at the rule itself. -/
def Purged.keepRule (selector : String) (own : Report) (warnings : List Warning) (inner : Purged) :
    Purged :=
  ⟨[.rule selector inner.nodes], own.add inner.report, warnings ++ inner.warnings⟩

/-! ## Trees -/

mutual

/-- Purge a node. -/
def purgeNode (allow : AllowList) : Node → Purged
  | .rule selector children =>
      match outcome allow selector with
      | .blank => .keepRule selector {} [] (purge allow children)
      | .unreadable error =>
          .keepRule selector { rulesSkipped := 1 } [⟨selector, error⟩] (purge allow children)
      | .removed branches => { report := { rulesRemoved := 1, branchesRemoved := branches } }
      | .kept shortened dropped =>
          .keepRule shortened { branchesRemoved := dropped } [] (purge allow children)
  | .layer name children => (purge allow children).wrap (.layer name)
  | .media condition children => (purge allow children).wrap (.media condition)
  | .atRule name params children =>
      if Node.isKeyframes name then { nodes := [.atRule name params children] }
      else (purge allow children).wrap (.atRule name params)
  | .declaration d => { nodes := [.declaration d] }
  | .comment text => { nodes := [.comment text] }
  | .statement name params => { nodes := [.statement name params] }
termination_by structural node => node

/-- Purge a list of nodes. -/
def purge (allow : AllowList) : List Node → Purged
  | [] => {}
  | n :: ns => (purgeNode allow n).append (purge allow ns)
termination_by structural nodes => nodes

end

end Stylesheet.Purge
