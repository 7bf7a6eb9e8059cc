import Stylesheet.Purge

/-!
# What the verdict on a branch means

The verdict goes through the parts of a branch from left to right.  `Allowed` says what it comes to
without going anywhere: of the pseudo-classes with a selector list only the last one counts, it has to have
an allowed branch, and behind it every part that markup has a name for has to be in use.  What stands in
front of it counts for nothing (`isAllowed_iff_allowed`).

Branches nest, so the proof goes from the branches in a selector list to the branch around them
(`Selector.inductionOnBranches`).
-/

namespace Stylesheet.Selector

/-- The selector list that a part takes, if it takes one. -/
def Part.branches? : Part → Option (List Branch)
  | .functional _ branches => some branches
  | _ => none

theorem Part.branches?_eq_some {part : Part} {branches : List Branch}
    (h : part.branches? = some branches) : ∃ name, part = .functional name branches := by
  cases part with
  | functional name found =>
      cases h
      exact ⟨name, rfl⟩
  | _ => cases h

/-- Induction over parts: what is shown of some parts may be assumed of the parts of every branch in a
selector list among them. -/
theorem inductionOnBranches {motive : List Part → Prop}
    (step : ∀ parts, (∀ name branches, .functional name branches ∈ parts →
      ∀ branch ∈ branches, motive branch.parts) → motive parts)
    (parts : List Part) : motive parts :=
  step parts fun _ _ _ branch _ => inductionOnBranches step branch.parts
termination_by sizeOf parts
decreasing_by
  next name branches hpart hbranch =>
    have houter := List.sizeOf_lt_of_mem hpart
    have hinner := List.sizeOf_lt_of_mem hbranch
    obtain ⟨text, inner⟩ := branch
    rw [Part.functional.sizeOf_spec] at houter
    rw [Branch.mk.sizeOf_spec] at hinner
    show sizeOf inner < sizeOf parts
    omega

end Stylesheet.Selector

namespace Stylesheet.Purge

open Stylesheet.Selector (Part Branch)

/-! ## Allowed branches -/

/-- No part takes a selector list. -/
def Listless (parts : List Part) : Prop := ∀ part ∈ parts, part.branches? = none

/-- Every part that markup has a name for is in use. -/
def Known (allow : AllowList) (parts : List Part) : Prop :=
  ∀ part ∈ parts, ∀ token, part.token? = some token → allow.accepts token = true

/-- The parts of an allowed branch. -/
inductive Allowed (allow : AllowList) : List Part → Prop where
  /-- Without a selector list all parts count. -/
  | listless {parts : List Part} : Listless parts → Known allow parts → Allowed allow parts
  /-- Otherwise the last selector list counts, with the parts behind it. -/
  | listed {before after : List Part} {name : String} {branches : List Branch} {branch : Branch} :
      branch ∈ branches → Allowed allow branch.parts → Listless after → Known allow after →
      Allowed allow (before ++ .functional name branches :: after)

/-- Some parts take no selector list, or one of them is the last that does. -/
theorem exists_last_list (parts : List Part) :
    Listless parts ∨ ∃ before name branches after,
      parts = before ++ .functional name branches :: after ∧ Listless after := by
  induction parts with
  | nil => exact .inl fun part hpart => absurd hpart List.not_mem_nil
  | cons part parts ih =>
      rcases ih with hrest | ⟨before, name, branches, after, rfl, hafter⟩
      · cases hlist : part.branches? with
        | none => exact .inl (List.forall_mem_cons.2 ⟨hlist, hrest⟩)
        | some branches =>
            obtain ⟨name, rfl⟩ := Part.branches?_eq_some hlist
            exact .inr ⟨[], name, branches, parts, rfl, hrest⟩
      · exact .inr ⟨part :: before, name, branches, after, rfl, hafter⟩

/-! ## The verdict -/

variable {allow : AllowList}

theorem verdict_append (sofar : Option Bool) (a b : List Part) :
    verdict allow sofar (a ++ b) = verdict allow (verdict allow sofar a) b := by
  induction a generalizing sofar with
  | nil => rw [List.nil_append, verdict]
  | cons part a ih => rw [List.cons_append, verdict, ih, verdict]

/-- The verdict behind a selector list does not depend on what stands in front of it. -/
theorem verdict_functional (sofar : Option Bool) (before : List Part) (name : String)
    (branches : List Branch) (after : List Part) :
    verdict allow sofar (before ++ .functional name branches :: after) =
      verdict allow (some (anyAllowed allow branches)) after := by
  rw [verdict_append, verdict, verdictAt]

/-- A part without a selector list counts under its name. -/
theorem getD_verdictAt {part : Part} (h : part.branches? = none) (sofar : Option Bool) :
    (verdictAt allow sofar part).getD true =
      (sofar.getD true && part.token?.all allow.accepts) := by
  cases part with
  | functional => cases h
  | tag | id | cls | universal => rw [verdictAt]; rfl
  | _ => rw [verdictAt]; exact (Bool.and_true _).symm

/-- Parts without selector lists leave a verdict positive when they are in use. -/
theorem getD_verdict_listless {parts : List Part} (h : Listless parts) (sofar : Option Bool) :
    (verdict allow sofar parts).getD true = true ↔
      sofar.getD true = true ∧ Known allow parts := by
  induction parts generalizing sofar with
  | nil => simp [verdict, Known]
  | cons part parts ih =>
      obtain ⟨hpart, hparts⟩ := List.forall_mem_cons.1 h
      rw [verdict, ih hparts, getD_verdictAt hpart, Bool.and_eq_true, and_assoc, Known, Known,
        List.forall_mem_cons, Option.all_eq_true]

theorem branchAllowed_eq (branch : Branch) :
    branchAllowed allow branch = isAllowed allow branch.parts := by
  cases branch with
  | mk text parts => rw [branchAllowed, isAllowed]

theorem anyAllowed_iff {branches : List Branch} :
    anyAllowed allow branches = true ↔ ∃ branch ∈ branches, isAllowed allow branch.parts = true := by
  induction branches with
  | nil => simp [anyAllowed]
  | cons branch branches ih =>
      rw [anyAllowed, Bool.or_eq_true, branchAllowed_eq, ih]
      simp only [List.mem_cons, exists_eq_or_imp]

theorem isAllowed_listless {parts : List Part} (h : Listless parts) :
    isAllowed allow parts = true ↔ Known allow parts := by
  rw [isAllowed, getD_verdict_listless h]
  exact and_iff_right rfl

/-- Of the selector lists only the last one counts. -/
theorem isAllowed_listed {before after : List Part} {name : String} {branches : List Branch}
    (h : Listless after) :
    isAllowed allow (before ++ .functional name branches :: after) = true ↔
      (∃ branch ∈ branches, isAllowed allow branch.parts = true) ∧ Known allow after := by
  rw [isAllowed, verdict_functional, getD_verdict_listless h, Option.getD_some, anyAllowed_iff]

theorem allowed_of_isAllowed {parts : List Part} (h : isAllowed allow parts = true) :
    Allowed allow parts := by
  induction parts using Selector.inductionOnBranches with
  | step parts ih =>
      rcases exists_last_list parts with hnone | ⟨before, name, branches, after, rfl, hafter⟩
      · exact .listless hnone ((isAllowed_listless hnone).1 h)
      · obtain ⟨⟨branch, hbranch, hallowed⟩, hknown⟩ := (isAllowed_listed hafter).1 h
        have hnested := ih name branches (by simp) branch hbranch hallowed
        exact .listed hbranch hnested hafter hknown

theorem Allowed.isAllowed {parts : List Part} (h : Allowed allow parts) :
    isAllowed allow parts = true := by
  induction h with
  | listless hnone hknown => exact (isAllowed_listless hnone).2 hknown
  | listed hbranch _ hafter hknown ih =>
      exact (isAllowed_listed hafter).2 ⟨⟨_, hbranch, ih⟩, hknown⟩

/-- The verdict holds of the allowed branches, and what stands in front of a selector list has no
influence on it. -/
theorem isAllowed_iff_allowed (allow : AllowList) (parts : List Part) :
    (isAllowed allow parts = true ↔ Allowed allow parts) ∧
      ∀ (before : List Part) (name : String) (branches : List Branch),
        isAllowed allow (before ++ .functional name branches :: parts) =
          isAllowed allow (.functional name branches :: parts) := by
  refine ⟨⟨allowed_of_isAllowed, Allowed.isAllowed⟩, fun before name branches => ?_⟩
  have hfront : verdict allow none (.functional name branches :: parts) =
      verdict allow (some (anyAllowed allow branches)) parts :=
    verdict_functional none [] name branches parts
  rw [isAllowed, isAllowed, verdict_functional, hfront]

end Stylesheet.Purge
