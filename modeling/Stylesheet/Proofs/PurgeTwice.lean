import Stylesheet.Proofs.PurgeTree

/-!
# Purging twice

A purged tree stays as it is when it is purged again with the same allow-list.  The second run reads
selectors that the first one wrote.  What it finds there is said by `branches?_rewritten`: the
branches of a rewritten selector are the allowed ones of the selector it comes from.  So no rewritten
selector is doomed, none changes when it is rewritten again, and none has a branch that is not
allowed.

From the selectors the law goes to trees by way of `Pruned`, and to reports and warnings by way of
the lists of selectors at which the two runs look.
-/

namespace Stylesheet.Selector

/-- A selector that can be read is not blank. -/
theorem blank_of_readList {selector : String} {branches : List Branch}
    (h : readList selector = .ok branches) : Text.blank selector = false := by
  cases hblank : Text.blank selector with
  | false => rfl
  | true =>
      have hspaces : Text.Spaces selector.toList := by
        intro c hc
        exact List.all_eq_true.1 hblank c hc
      have hsplit : splitBranches selector.toList = .ok [selector.toList] :=
        Place.split_last (Place.along_spaces rfl hspaces)
      have htrim : Text.trim selector.toList = [] := by
        have hall := Text.trim_eq_of_trimmed hspaces Text.trimmed_nil Text.spaces_nil
        simpa using hall
      rw [readList, readListWithin_self (Nat.le_of_eq String.length_toList), readListWith,
        hsplit] at h
      -- The only piece is empty, and an empty branch cannot be read.
      simp [bind, Except.bind, htrim, readTrimmed, readParts] at h

end Stylesheet.Selector

namespace Stylesheet.Purge

open Stylesheet.Selector (Branch readList)

/-! ## Rewritten selectors -/

/-- The branches of a rewritten selector are the allowed ones. -/
theorem branches?_rewritten {allow : AllowList} {selector : String}
    (h : isDoomed allow selector = false) :
    branches? (rewritten allow selector) =
      (branches? selector).map fun branches => branches.filter (branchAllowed allow) := by
  rcases outcome_cases allow selector with ⟨-, hnone, -⟩ | ⟨e, -, -, hnone, -⟩ |
    ⟨branches, -, hread, hsome, -⟩
  · rw [rewritten, hnone]
    exact hnone
  · rw [rewritten, hnone]
    exact hnone
  · have hagain := readList_rewritten h hread hsome
    rw [branches?, Selector.blank_of_readList hagain, hagain, hsome]
    rfl

/-- A selector that has no branches is not rewritten. -/
theorem rewritten_of_none {allow : AllowList} {selector : String}
    (h : branches? selector = none) : rewritten allow selector = selector := by
  rw [rewritten, h]

/-- A selector with branches stays when one of them is allowed. -/
theorem isDoomed_eq_false_iff {allow : AllowList} {selector : String} {branches : List Branch}
    (h : branches? selector = some branches) :
    isDoomed allow selector = false ↔ ∃ b ∈ branches, branchAllowed allow b = true := by
  simp [isDoomed, h]

theorem isDoomed_rewritten {allow : AllowList} {selector : String}
    (h : isDoomed allow selector = false) : isDoomed allow (rewritten allow selector) = false := by
  cases hbranches : branches? selector with
  | none => rwa [rewritten_of_none hbranches]
  | some branches =>
      -- One branch is allowed, and it is still there.
      obtain ⟨b, hb, hallowed⟩ := (isDoomed_eq_false_iff hbranches).1 h
      have hagain := branches?_rewritten h
      rw [hbranches, Option.map_some] at hagain
      exact (isDoomed_eq_false_iff hagain).2 ⟨b, List.mem_filter.2 ⟨hb, hallowed⟩, hallowed⟩

theorem rewritten_rewritten {allow : AllowList} {selector : String}
    (h : isDoomed allow selector = false) :
    rewritten allow (rewritten allow selector) = rewritten allow selector := by
  cases hbranches : branches? selector with
  | none => rw [rewritten_of_none hbranches, rewritten_of_none hbranches]
  | some branches =>
      have hagain := branches?_rewritten h
      rw [hbranches, Option.map_some] at hagain
      calc rewritten allow (rewritten allow selector)
          = Text.join ", " (((branches.filter (branchAllowed allow)).filter
              (branchAllowed allow)).map Branch.text) := by rw [rewritten, hagain]
        _ = Text.join ", " ((branches.filter (branchAllowed allow)).map Branch.text) := by
              rw [List.filter_filter]
              simp
        _ = rewritten allow selector := by rw [rewritten, hbranches]

theorem disallowed_rewritten {allow : AllowList} {selector : String}
    (h : isDoomed allow selector = false) : disallowed allow (rewritten allow selector) = 0 := by
  rw [disallowed, branches?_rewritten h, List.countP_eq_zero]
  intro b hb
  cases hbranches : branches? selector with
  | none =>
      rw [hbranches] at hb
      cases hb
  | some branches =>
      rw [hbranches] at hb
      simpa using (List.mem_filter.1 hb).2

/-! ## Warnings -/

/-- The warning about a selector that is neither blank nor readable. -/
def warning? (selector : String) : Option Warning :=
  if Text.blank selector then none
  else
    match readList selector with
    | .ok _ => none
    | .error error => some ⟨selector, error⟩

theorem isUnreadable_eq (selector : String) : isUnreadable selector = (warning? selector).isSome := by
  rw [isUnreadable, warning?]
  cases Text.blank selector with
  | true => rfl
  | false =>
      cases readList selector with
      | error e => rfl
      | ok branches => rfl

theorem warning?_of_some {selector : String} {branches : List Branch}
    (h : branches? selector = some branches) : warning? selector = none := by
  rw [branches?] at h
  rw [warning?]
  cases hblank : Text.blank selector with
  | true => rfl
  | false =>
      cases hread : readList selector with
      | error e =>
          rw [hblank, hread] at h
          cases h
      | ok branches => rfl

theorem warning?_rewritten {allow : AllowList} {selector : String}
    (h : isDoomed allow selector = false) :
    warning? (rewritten allow selector) = warning? selector := by
  cases hbranches : branches? selector with
  | none => rw [rewritten_of_none hbranches]
  | some branches =>
      have hagain := branches?_rewritten h
      rw [hbranches] at hagain
      rw [warning?_of_some hagain, warning?_of_some hbranches]

theorem warning?_of_isDoomed {allow : AllowList} {selector : String}
    (h : isDoomed allow selector = true) : warning? selector = none := by
  cases hbranches : branches? selector with
  | none => simp [isDoomed, hbranches] at h
  | some branches => exact warning?_of_some hbranches

/-- The warnings about a rule and what is in it. -/
theorem warnings_purgeNode_rule (allow : AllowList) (selector : String) (children : List Node) :
    (purgeNode allow (.rule selector children)).warnings =
      (warning? selector).toList ++
        if isDoomed allow selector then [] else (purge allow children).warnings := by
  rw [purgeNode]
  rcases outcome_cases allow selector with ⟨hblank, hnone, houtcome⟩ |
    ⟨e, hblank, hread, hnone, houtcome⟩ | ⟨branches, hblank, hread, hsome, houtcome⟩
  · rw [houtcome]
    simp [isDoomed, warning?, hblank, hnone, Purged.keepRule]
  · rw [houtcome]
    simp [isDoomed, warning?, hblank, hread, hnone, Purged.keepRule]
  · rw [houtcome, warning?_of_some hsome]
    cases isDoomed allow selector with
    | true => rfl
    | false => rfl

mutual

theorem warnings_purgeNode (allow : AllowList) : (n : Node) →
    (purgeNode allow n).warnings = (reachedAt allow n).filterMap warning?
  | .rule selector children => by
      rw [warnings_purgeNode_rule, reachedAt, warnings_purge allow children, List.filterMap_cons]
      cases warning? selector with
      | none =>
          cases isDoomed allow selector with
          | true => rfl
          | false => rfl
      | some w =>
          cases isDoomed allow selector with
          | true => rfl
          | false => rfl
  | .layer _ children => by rw [purgeNode, reachedAt, ← warnings_purge allow children, Purged.wrap]
  | .media _ children => by rw [purgeNode, reachedAt, ← warnings_purge allow children, Purged.wrap]
  | .atRule name _ children => by
      rw [purgeNode, reachedAt]
      split
      · rfl
      · rw [← warnings_purge allow children, Purged.wrap]
  | .declaration _ => by
      rw [purgeNode, reachedAt]
      rfl
  | .comment _ => by
      rw [purgeNode, reachedAt]
      rfl
  | .statement _ _ => by
      rw [purgeNode, reachedAt]
      rfl
termination_by structural n => n

/-- The warnings are about the rules at which purging looks. -/
theorem warnings_purge (allow : AllowList) : (nodes : List Node) →
    (purge allow nodes).warnings = (reached allow nodes).filterMap warning?
  | [] => by
      rw [purge_nil, reached]
      rfl
  | n :: ns => by
      rw [reached, List.filterMap_append, ← warnings_purgeNode allow n, ← warnings_purge allow ns,
        purge, Purged.append]
termination_by structural nodes => nodes

end

/-! ## Purged trees -/

/-- A pruned tree has nothing left to prune. -/
theorem Pruned.again {allow : AllowList} {nodes after : List Node} (h : Pruned allow nodes after) :
    Pruned allow after after := by
  induction h with
  | nil => exact .nil
  | doomed _ _ ih => exact ih
  | rule hdoomed _ _ ihc ih =>
      have hrule := Pruned.rule (isDoomed_rewritten hdoomed) ihc ih
      rwa [rewritten_rewritten hdoomed] at hrule
  | layer _ _ ihc ih => exact .layer ihc ih
  | media _ _ ihc ih => exact .media ihc ih
  | keyframes hname _ ih => exact .keyframes hname ih
  | atRule hname _ _ ihc ih => exact .atRule hname ihc ih
  | declaration _ ih => exact .declaration ih
  | comment _ ih => exact .comment ih
  | statement _ ih => exact .statement ih

mutual

theorem reachedAt_eq_selectorsAt {allow : AllowList} : (n : Node) →
    (∀ s ∈ selectorsAt n, isDoomed allow s = false) → reachedAt allow n = selectorsAt n
  | .rule selector children, h => by
      rw [selectorsAt] at h
      rw [reachedAt, selectorsAt, h selector List.mem_cons_self,
        reached_eq_selectors children fun s hs => h s (List.mem_cons_of_mem _ hs)]
      rfl
  | .layer _ children, h => by
      rw [selectorsAt] at h
      rw [reachedAt, selectorsAt, reached_eq_selectors children h]
  | .media _ children, h => by
      rw [selectorsAt] at h
      rw [reachedAt, selectorsAt, reached_eq_selectors children h]
  | .atRule name _ children, h => by
      rw [selectorsAt] at h
      rw [reachedAt, selectorsAt]
      cases hname : Node.isKeyframes name with
      | true => rfl
      | false =>
          rw [hname] at h
          exact reached_eq_selectors children h
  | .declaration _, _ => by rw [reachedAt, selectorsAt]
  | .comment _, _ => by rw [reachedAt, selectorsAt]
  | .statement _ _, _ => by rw [reachedAt, selectorsAt]
termination_by structural n => n

/-- Where no rule is doomed, purging looks at all of them. -/
theorem reached_eq_selectors {allow : AllowList} : (nodes : List Node) →
    (∀ s ∈ selectors nodes, isDoomed allow s = false) → reached allow nodes = selectors nodes
  | [], _ => by rw [reached, selectors]
  | n :: ns, h => by
      rw [selectors] at h
      rw [reached, selectors,
        reachedAt_eq_selectorsAt n fun s hs => h s (List.mem_append_left _ hs),
        reached_eq_selectors ns fun s hs => h s (List.mem_append_right _ hs)]
termination_by structural nodes => nodes

end

theorem exists_of_mem_rewritten {allow : AllowList} {selectors : List String} {s : String}
    (h : s ∈ (selectors.filter fun s => !isDoomed allow s).map (rewritten allow)) :
    ∃ t, isDoomed allow t = false ∧ s = rewritten allow t := by
  obtain ⟨t, ht, rfl⟩ := List.mem_map.1 h
  exact ⟨t, by simpa using (List.mem_filter.1 ht).2, rfl⟩

/-- The second run looks at what is left of the selectors at which the first one looked. -/
theorem reached_purge (allow : AllowList) (nodes : List Node) :
    reached allow (purge allow nodes).nodes =
      ((reached allow nodes).filter fun s => !isDoomed allow s).map (rewritten allow) := by
  rw [← selectors_purge]
  refine reached_eq_selectors _ ?_
  intro s hs
  rw [selectors_purge] at hs
  obtain ⟨t, ht, rfl⟩ := exists_of_mem_rewritten hs
  exact isDoomed_rewritten ht

/-- Doomed selectors give no warnings, and the others the same after they are rewritten. -/
theorem filterMap_warning?_rewritten (allow : AllowList) (selectors : List String) :
    ((selectors.filter fun s => !isDoomed allow s).map (rewritten allow)).filterMap warning? =
      selectors.filterMap warning? := by
  induction selectors with
  | nil => rfl
  | cons s ss ih =>
      cases hdoomed : isDoomed allow s with
      | true => simp [hdoomed, warning?_of_isDoomed hdoomed, ih]
      | false => simp [hdoomed, List.filterMap_cons, warning?_rewritten hdoomed, ih]

/-- Unreadable selectors are as many as warnings. -/
theorem countP_isUnreadable (selectors : List String) :
    selectors.countP isUnreadable = (selectors.filterMap warning?).length := by
  rw [List.length_filterMap_eq_countP]
  exact List.countP_congr fun s _ => by rw [isUnreadable_eq]

/-- Purging a purged tree leaves it as it is, removes nothing, and meets the same selectors that
cannot be read. -/
theorem purge_purge (allow : AllowList) (nodes : List Node) :
    purge allow (purge allow nodes).nodes =
      { nodes := (purge allow nodes).nodes
        report :=
          { rulesRemoved := 0
            branchesRemoved := 0
            rulesSkipped := (purge allow nodes).report.rulesSkipped }
        warnings := (purge allow nodes).warnings } := by
  have hnodes : (purge allow (purge allow nodes).nodes).nodes = (purge allow nodes).nodes :=
    (pruned_purge allow nodes).again.eq_purge.symm
  have hwarnings : (purge allow (purge allow nodes).nodes).warnings =
      (purge allow nodes).warnings := by
    rw [warnings_purge, reached_purge, filterMap_warning?_rewritten, warnings_purge]
  have hreport : (purge allow (purge allow nodes).nodes).report =
      ⟨0, 0, (purge allow nodes).report.rulesSkipped⟩ := by
    rw [report_purge, report_purge, tally, tally, countP_isUnreadable, countP_isUnreadable,
      reached_purge, filterMap_warning?_rewritten, Report.mk.injEq]
    refine ⟨?_, ?_, rfl⟩
    · rw [List.countP_eq_zero]
      intro s hs
      obtain ⟨t, ht, rfl⟩ := exists_of_mem_rewritten hs
      simp [isDoomed_rewritten ht]
    · rw [List.sum_eq_zero_iff]
      intro k hk
      obtain ⟨s, hs, rfl⟩ := List.mem_map.1 hk
      obtain ⟨t, ht, rfl⟩ := exists_of_mem_rewritten hs
      exact disallowed_rewritten ht
  calc purge allow (purge allow nodes).nodes
      = ⟨(purge allow (purge allow nodes).nodes).nodes,
          (purge allow (purge allow nodes).nodes).report,
          (purge allow (purge allow nodes).nodes).warnings⟩ := rfl
    _ = _ := by rw [hnodes, hreport, hwarnings]

end Stylesheet.Purge
