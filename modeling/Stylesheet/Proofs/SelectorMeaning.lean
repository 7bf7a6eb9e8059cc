import Stylesheet.Proofs.Trimming
import Stylesheet.Purge

/-!
# What a selector means

Two branches mean the same when their parts are the same up to spaces in the texts that are kept as they
are written: those of branches, attributes and arguments.  The *bare* branch has no spaces in them.  A
verdict looks at none of these texts, so it depends on the bare branch only.
-/

namespace Stylesheet.Selector

open Stylesheet.Text (isSpace trim Spaces)

/-- A text without its spaces. -/
def squeeze (s : String) : String := .ofList (s.toList.filter fun c => !isSpace c)

theorem squeeze_ofList {a b : List Char}
    (h : (a.filter fun c => !isSpace c) = b.filter fun c => !isSpace c) :
    squeeze (.ofList a) = squeeze (.ofList b) := by
  rw [squeeze, squeeze, String.toList_ofList, String.toList_ofList, h]

theorem filter_trim (cs : List Char) :
    ((trim cs).filter fun c => !isSpace c) = cs.filter fun c => !isSpace c := by
  have hspaces : ∀ {a : List Char}, Spaces a → (a.filter fun c => !isSpace c) = [] := by
    intro a ha
    rw [List.filter_eq_nil_iff]
    intro c hc
    rw [ha c hc]
    decide
  obtain ⟨a, b, hcs, ha, hb, -⟩ := Text.exists_trim cs
  have hfilter := congrArg (List.filter fun c => !isSpace c) hcs
  rw [List.filter_append, List.filter_append, hspaces ha, hspaces hb, List.nil_append,
    List.append_nil] at hfilter
  exact hfilter.symm

mutual

/-- A part without spaces in texts that are kept as they are written. -/
def Part.bare : Part → Part
  | .functional name branches => .functional name (bareBranches branches)
  | .attribute text => .attribute (squeeze text)
  | .pseudo name argument => .pseudo name (argument.map squeeze)
  | .tag name => .tag name
  | .id name => .id name
  | .cls name => .cls name
  | .universal => .universal
  | .combinator kind => .combinator kind
  | .other text => .other text
termination_by structural part => part

/-- A branch without spaces in texts that are kept as they are written. -/
def Branch.bare : Branch → Branch
  | ⟨text, parts⟩ => ⟨squeeze text, bareParts parts⟩
termination_by structural branch => branch

/-- Some parts without such spaces. -/
def bareParts : List Part → List Part
  | [] => []
  | part :: parts => part.bare :: bareParts parts
termination_by structural parts => parts

/-- Some branches without such spaces. -/
def bareBranches : List Branch → List Branch
  | [] => []
  | branch :: branches => branch.bare :: bareBranches branches
termination_by structural branches => branches

end

theorem bareParts_eq_map (parts : List Part) : bareParts parts = parts.map Part.bare := by
  induction parts with
  | nil => rfl
  | cons part parts ih => rw [bareParts, ih, List.map_cons]

/-! ## Texts -/

mutual

/-- Does something hold of the text of a branch nested in a part? -/
def Part.anyText (p : String → Bool) : Part → Bool
  | .functional _ branches => anyTextOfBranches p branches
  | .tag _ => false
  | .id _ => false
  | .cls _ => false
  | .universal => false
  | .pseudo _ _ => false
  | .combinator _ => false
  | .attribute _ => false
  | .other _ => false
termination_by structural part => part

/-- Does something hold of the text of a branch, or of one nested in it? -/
def Branch.anyText (p : String → Bool) : Branch → Bool
  | ⟨text, parts⟩ => p text || anyTextOfParts p parts
termination_by structural branch => branch

/-- Does it hold for one of some parts? -/
def anyTextOfParts (p : String → Bool) : List Part → Bool
  | [] => false
  | part :: parts => part.anyText p || anyTextOfParts p parts
termination_by structural parts => parts

/-- Does it hold for one of some branches? -/
def anyTextOfBranches (p : String → Bool) : List Branch → Bool
  | [] => false
  | branch :: branches => branch.anyText p || anyTextOfBranches p branches
termination_by structural branches => branches

end

theorem anyTextOfParts_append (p : String → Bool) (a b : List Part) :
    anyTextOfParts p (a ++ b) = (anyTextOfParts p a || anyTextOfParts p b) := by
  induction a with
  | nil => rfl
  | cons part a ih => rw [List.cons_append, anyTextOfParts, anyTextOfParts, ih, Bool.or_assoc]

theorem anyTextOfBranches_eq_false {p : String → Bool} {branches : List Branch} :
    anyTextOfBranches p branches = false ↔ ∀ branch ∈ branches, branch.anyText p = false := by
  induction branches with
  | nil => simp [anyTextOfBranches]
  | cons branch branches ih => rw [anyTextOfBranches, Bool.or_eq_false_iff, ih, List.forall_mem_cons]

end Stylesheet.Selector

namespace Stylesheet.Purge

open Stylesheet.Selector (Part Branch bareParts bareBranches)

variable (allow : AllowList)

mutual

theorem verdictAt_bare (sofar : Option Bool) (part : Part) :
    verdictAt allow sofar part.bare = verdictAt allow sofar part := by
  cases part with
  | functional name branches =>
      rw [Part.bare, verdictAt, verdictAt, anyAllowed_bare branches]
  | _ => rfl

theorem branchAllowed_bare (branch : Branch) :
    branchAllowed allow branch.bare = branchAllowed allow branch := by
  cases branch with
  | mk text parts => rw [Branch.bare, branchAllowed, branchAllowed, verdict_bare none parts]

theorem verdict_bare (sofar : Option Bool) (parts : List Part) :
    verdict allow sofar (bareParts parts) = verdict allow sofar parts := by
  cases parts with
  | nil => rfl
  | cons part parts => rw [bareParts, verdict, verdict, verdictAt_bare sofar part, verdict_bare _ parts]

theorem anyAllowed_bare (branches : List Branch) :
    anyAllowed allow (bareBranches branches) = anyAllowed allow branches := by
  cases branches with
  | nil => rfl
  | cons branch branches =>
      rw [bareBranches, anyAllowed, anyAllowed, branchAllowed_bare branch, anyAllowed_bare branches]

end

end Stylesheet.Purge
