import Stylesheet.Proofs.SelectorText
import Stylesheet.Purge

/-!
# What purging does to a tree

`Purge.purge` walks a tree once: it removes rules, rewrites selectors and counts on the way.  Here
the three are said apart, each without the walk.

* A rule is *doomed* when its selector is not blank, can be read, and has no allowed branch.  What
  is left of the selector of any other rule is `rewritten`.
* `Pruned` relates a tree to the tree without its doomed rules and with the other selectors
  rewritten.  Rules below a doomed one go with it, and keyframes stay as they are.
* `reached` lists the selectors of the rules at which purging looks: those outside keyframes in whose
  enclosing rules none is doomed.  The report counts over this list, and what is left of it are the
  selectors of the purged tree (`selectors_purge`).

That a rewritten selector has no branches but allowed ones is not obvious from its text.  It is
`Selector.readList_join` again: the text is read as the branches that it was put together from.
-/

namespace Stylesheet.Purge

open Stylesheet.Selector (Branch readList)

/-! ## Selectors -/

/-- The branches of a selector that is not blank and can be read. -/
def branches? (selector : String) : Option (List Branch) :=
  if Text.blank selector then none else (readList selector).toOption

/-- Does the rule with this selector go? -/
def isDoomed (allow : AllowList) (selector : String) : Bool :=
  (branches? selector).any fun branches => branches.all fun b => !branchAllowed allow b

/-- What is left of the selector of a rule that stays. -/
def rewritten (allow : AllowList) (selector : String) : String :=
  match branches? selector with
  | none => selector
  | some branches => Text.join ", " ((branches.filter (branchAllowed allow)).map Branch.text)

/-- How many branches of a selector are not allowed. -/
def disallowed (allow : AllowList) (selector : String) : Nat :=
  ((branches? selector).getD []).countP fun b => !branchAllowed allow b

/-- Is a selector neither blank nor readable? -/
def isUnreadable (selector : String) : Bool := !Text.blank selector && !(readList selector).isOk

/-- Is a selector blank, not readable, or made of allowed branches only? -/
def Clean (allow : AllowList) (selector : String) : Prop :=
  Text.blank selector = true ∨ (∃ e, readList selector = .error e) ∨
    ∃ branches, readList selector = .ok branches ∧ ∀ b ∈ branches, branchAllowed allow b = true

/-- What happens to a rule, in terms of its selector. -/
theorem outcome_cases (allow : AllowList) (selector : String) :
    (Text.blank selector = true ∧ branches? selector = none ∧ outcome allow selector = .blank) ∨
    (∃ e, Text.blank selector = false ∧ readList selector = .error e ∧
      branches? selector = none ∧ outcome allow selector = .unreadable e) ∨
    (∃ branches, Text.blank selector = false ∧ readList selector = .ok branches ∧
      branches? selector = some branches ∧
      outcome allow selector =
        if isDoomed allow selector then .removed (disallowed allow selector)
        else .kept (rewritten allow selector) (disallowed allow selector)) := by
  cases hblank : Text.blank selector with
  | true => exact .inl ⟨rfl, by simp [branches?, hblank], by simp [outcome, hblank]⟩
  | false =>
      cases hread : readList selector with
      | error e =>
          refine .inr (.inl ⟨e, rfl, rfl, ?_, by simp [outcome, hblank, hread]⟩)
          simp [branches?, hblank, hread, Except.toOption]
      | ok branches =>
          have hbranches : branches? selector = some branches := by
            simp [branches?, hblank, hread, Except.toOption]
          refine .inr (.inr ⟨branches, rfl, rfl, hbranches, ?_⟩)
          have hcount : branches.length - (branches.filter (branchAllowed allow)).length =
              disallowed allow selector := by
            have hall := branches.length_eq_countP_add_countP (branchAllowed allow)
            have hsome : disallowed allow selector =
                branches.countP fun b => !branchAllowed allow b := by
              simp [disallowed, hbranches]
            have hnot : (branches.countP fun b => !branchAllowed allow b) =
                branches.countP fun b => decide ¬branchAllowed allow b = true := by simp
            rw [List.countP_eq_length_filter] at hall
            omega
          have hdoomed : (branches.filter (branchAllowed allow)).isEmpty = isDoomed allow selector := by
            rw [Bool.eq_iff_iff, List.isEmpty_iff, List.filter_eq_nil_iff]
            simp [isDoomed, hbranches]
          rw [outcome, if_neg (by simp [hblank]), hread]
          dsimp only
          rw [hcount, hdoomed, rewritten, hbranches]

/-! ## Trees -/

mutual

/-- The selectors of the rules outside keyframes at and below a node. -/
def selectorsAt : Node → List String
  | .rule selector children => selector :: selectors children
  | .layer _ children => selectors children
  | .media _ children => selectors children
  | .atRule name _ children => if Node.isKeyframes name then [] else selectors children
  | .declaration _ => []
  | .comment _ => []
  | .statement _ _ => []
termination_by structural node => node

/-- The selectors of the rules outside keyframes at any depth, in document order. -/
def selectors : List Node → List String
  | [] => []
  | n :: ns => selectorsAt n ++ selectors ns
termination_by structural nodes => nodes

end

mutual

/-- The selectors of the rules at and below a node at which purging looks. -/
def reachedAt (allow : AllowList) : Node → List String
  | .rule selector children =>
      selector :: if isDoomed allow selector then [] else reached allow children
  | .layer _ children => reached allow children
  | .media _ children => reached allow children
  | .atRule name _ children => if Node.isKeyframes name then [] else reached allow children
  | .declaration _ => []
  | .comment _ => []
  | .statement _ _ => []
termination_by structural node => node

/-- The selectors of the rules outside keyframes whose enclosing rules all stay, in document
order. -/
def reached (allow : AllowList) : List Node → List String
  | [] => []
  | n :: ns => reachedAt allow n ++ reached allow ns
termination_by structural nodes => nodes

end

theorem selectors_append (a b : List Node) : selectors (a ++ b) = selectors a ++ selectors b := by
  induction a with
  | nil => simp [selectors]
  | cons n ns ih => simp [selectors, ih]

/-- The second tree is the first without its doomed rules, with the other selectors rewritten, and
otherwise the same.  Keyframes are not looked into. -/
inductive Pruned (allow : AllowList) : List Node → List Node → Prop where
  /-- Nothing is left of nothing. -/
  | nil : Pruned allow [] []
  /-- A doomed rule goes with all that is in it. -/
  | doomed {selector : String} {children ns ns' : List Node} :
      isDoomed allow selector = true → Pruned allow ns ns' →
      Pruned allow (.rule selector children :: ns) ns'
  /-- Any other rule stays. -/
  | rule {selector : String} {children children' ns ns' : List Node} :
      isDoomed allow selector = false → Pruned allow children children' → Pruned allow ns ns' →
      Pruned allow (.rule selector children :: ns)
        (.rule (rewritten allow selector) children' :: ns')
  /-- A layer stays. -/
  | layer {name : Option String} {children children' ns ns' : List Node} :
      Pruned allow children children' → Pruned allow ns ns' →
      Pruned allow (.layer name children :: ns) (.layer name children' :: ns')
  /-- A media block stays. -/
  | media {condition : String} {children children' ns ns' : List Node} :
      Pruned allow children children' → Pruned allow ns ns' →
      Pruned allow (.media condition children :: ns) (.media condition children' :: ns')
  /-- Keyframes stay as they are. -/
  | keyframes {name params : String} {children ns ns' : List Node} :
      Node.isKeyframes name = true → Pruned allow ns ns' →
      Pruned allow (.atRule name params children :: ns) (.atRule name params children :: ns')
  /-- Any other at-rule stays. -/
  | atRule {name params : String} {children children' ns ns' : List Node} :
      Node.isKeyframes name = false → Pruned allow children children' → Pruned allow ns ns' →
      Pruned allow (.atRule name params children :: ns) (.atRule name params children' :: ns')
  /-- Declarations stay. -/
  | declaration {d : Declaration} {ns ns' : List Node} :
      Pruned allow ns ns' → Pruned allow (.declaration d :: ns) (.declaration d :: ns')
  /-- Comments stay. -/
  | comment {text : String} {ns ns' : List Node} :
      Pruned allow ns ns' → Pruned allow (.comment text :: ns) (.comment text :: ns')
  /-- At-rules without a block stay. -/
  | statement {name params : String} {ns ns' : List Node} :
      Pruned allow ns ns' → Pruned allow (.statement name params :: ns) (.statement name params :: ns')

/-! ## The walk -/

/-- The report on rules with these selectors. -/
def tally (allow : AllowList) (selectors : List String) : Report :=
  ⟨selectors.countP (isDoomed allow), (selectors.map (disallowed allow)).sum,
    selectors.countP isUnreadable⟩

theorem tally_append (allow : AllowList) (a b : List String) :
    tally allow (a ++ b) = (tally allow a).add (tally allow b) := by
  simp [tally, Report.add]

@[simp] theorem Report.add_zero (r : Report) : r.add {} = r := rfl

@[simp] theorem Report.zero_add (r : Report) : Report.add {} r = r := by
  simp [Report.add]

/-- What is left of a rule, and what is counted at it. -/
theorem purgeNode_rule (allow : AllowList) (selector : String) (children : List Node) :
    (purgeNode allow (.rule selector children)).nodes =
        (if isDoomed allow selector then []
        else [.rule (rewritten allow selector) (purge allow children).nodes]) ∧
      (purgeNode allow (.rule selector children)).report =
        (tally allow [selector]).add
          (if isDoomed allow selector then {} else (purge allow children).report) := by
  rw [purgeNode]
  rcases outcome_cases allow selector with ⟨hblank, hnone, houtcome⟩ |
    ⟨e, hblank, hread, hnone, houtcome⟩ | ⟨branches, hblank, hread, hsome, houtcome⟩
  · rw [houtcome]
    simp [isDoomed, rewritten, disallowed, isUnreadable, tally, hblank, hnone, Purged.keepRule]
  · rw [houtcome]
    simp [isDoomed, rewritten, disallowed, isUnreadable, tally, hblank, hread, hnone,
      Purged.keepRule, Except.isOk, Except.toBool]
  · have hreadable : isUnreadable selector = false := by
      simp [isUnreadable, hread, Except.isOk, Except.toBool]
    rw [houtcome]
    cases hdoomed : isDoomed allow selector with
    | true => simp [tally, hdoomed, hreadable]
    | false => simp [tally, hdoomed, hreadable, Purged.keepRule]

theorem purge_nil (allow : AllowList) : purge allow [] = {} := by rw [purge]

theorem nodes_purge_cons (allow : AllowList) (n : Node) (ns : List Node) :
    (purge allow (n :: ns)).nodes = (purgeNode allow n).nodes ++ (purge allow ns).nodes := by
  rw [purge, Purged.append]

theorem report_purge_cons (allow : AllowList) (n : Node) (ns : List Node) :
    (purge allow (n :: ns)).report = (purgeNode allow n).report.add (purge allow ns).report := by
  rw [purge, Purged.append]

/-- Whatever a tree is pruned to is what purging leaves. -/
theorem Pruned.eq_purge {allow : AllowList} {nodes after : List Node}
    (h : Pruned allow nodes after) : after = (purge allow nodes).nodes := by
  induction h with
  | nil => rw [purge_nil]
  | doomed hdoomed _ ih =>
      rw [nodes_purge_cons, (purgeNode_rule ..).1, if_pos hdoomed, ih]
      rfl
  | rule hdoomed _ _ ihc ih =>
      rw [nodes_purge_cons, (purgeNode_rule ..).1, if_neg (by simp [hdoomed]), ← ihc, ← ih]
      rfl
  | layer _ _ ihc ih =>
      rw [nodes_purge_cons, purgeNode, Purged.wrap, ← ihc, ← ih]
      rfl
  | media _ _ ihc ih =>
      rw [nodes_purge_cons, purgeNode, Purged.wrap, ← ihc, ← ih]
      rfl
  | keyframes hname _ ih =>
      rw [nodes_purge_cons, purgeNode, if_pos hname, ← ih]
      rfl
  | atRule hname _ _ ihc ih =>
      rw [nodes_purge_cons, purgeNode, if_neg (by simp [hname]), Purged.wrap, ← ihc, ← ih]
      rfl
  | declaration _ ih =>
      rw [nodes_purge_cons, purgeNode, ← ih]
      rfl
  | comment _ ih =>
      rw [nodes_purge_cons, purgeNode, ← ih]
      rfl
  | statement _ ih =>
      rw [nodes_purge_cons, purgeNode, ← ih]
      rfl

mutual

theorem pruned_purgeNode (allow : AllowList) : (n : Node) → {ns ns' : List Node} →
    Pruned allow ns ns' → Pruned allow (n :: ns) ((purgeNode allow n).nodes ++ ns')
  | .rule selector children, ns, ns', h => by
      rw [(purgeNode_rule ..).1]
      cases hdoomed : isDoomed allow selector with
      | true => exact .doomed hdoomed h
      | false => exact .rule hdoomed (pruned_purge allow children) h
  | .layer _ children, ns, ns', h => by
      rw [purgeNode]
      exact .layer (pruned_purge allow children) h
  | .media _ children, ns, ns', h => by
      rw [purgeNode]
      exact .media (pruned_purge allow children) h
  | .atRule name _ children, ns, ns', h => by
      rw [purgeNode]
      cases hname : Node.isKeyframes name with
      | true => exact .keyframes hname h
      | false => exact .atRule hname (pruned_purge allow children) h
  | .declaration _, ns, ns', h => by
      rw [purgeNode]
      exact .declaration h
  | .comment _, ns, ns', h => by
      rw [purgeNode]
      exact .comment h
  | .statement _ _, ns, ns', h => by
      rw [purgeNode]
      exact .statement h
termination_by structural n => n

/-- Purging prunes. -/
theorem pruned_purge (allow : AllowList) : (nodes : List Node) →
    Pruned allow nodes (purge allow nodes).nodes
  | [] => by
      rw [purge_nil]
      exact .nil
  | n :: ns => by
      rw [nodes_purge_cons]
      exact pruned_purgeNode allow n (pruned_purge allow ns)
termination_by structural nodes => nodes

end

mutual

theorem report_purgeNode (allow : AllowList) : (n : Node) →
    (purgeNode allow n).report = tally allow (reachedAt allow n)
  | .rule selector children => by
      rw [(purgeNode_rule ..).2, reachedAt, report_purge allow children]
      cases isDoomed allow selector with
      | true => rfl
      | false => exact (tally_append allow [selector] (reached allow children)).symm
  | .layer _ children => by rw [purgeNode, reachedAt, ← report_purge allow children, Purged.wrap]
  | .media _ children => by rw [purgeNode, reachedAt, ← report_purge allow children, Purged.wrap]
  | .atRule name _ children => by
      rw [purgeNode, reachedAt]
      split
      · rfl
      · rw [← report_purge allow children, Purged.wrap]
  | .declaration _ => by
      rw [purgeNode, reachedAt]
      rfl
  | .comment _ => by
      rw [purgeNode, reachedAt]
      rfl
  | .statement _ _ => by
      rw [purgeNode, reachedAt]
      rfl
termination_by structural n => n

/-- The report is on the rules at which purging looks. -/
theorem report_purge (allow : AllowList) : (nodes : List Node) →
    (purge allow nodes).report = tally allow (reached allow nodes)
  | [] => by
      rw [purge_nil, reached]
      rfl
  | n :: ns => by
      rw [report_purge_cons, reached, tally_append, report_purgeNode allow n, report_purge allow ns]
termination_by structural nodes => nodes

end

mutual

theorem selectors_purgeNode (allow : AllowList) : (n : Node) →
    selectors (purgeNode allow n).nodes =
      ((reachedAt allow n).filter fun s => !isDoomed allow s).map (rewritten allow)
  | .rule selector children => by
      rw [(purgeNode_rule ..).1, reachedAt]
      cases hdoomed : isDoomed allow selector with
      | true => simp [selectors, hdoomed]
      | false => simp [selectors, selectorsAt, hdoomed, selectors_purge allow children]
  | .layer _ children => by
      rw [purgeNode, reachedAt, ← selectors_purge allow children]
      simp [selectors, selectorsAt, Purged.wrap]
  | .media _ children => by
      rw [purgeNode, reachedAt, ← selectors_purge allow children]
      simp [selectors, selectorsAt, Purged.wrap]
  | .atRule name _ children => by
      rw [purgeNode, reachedAt]
      cases hname : Node.isKeyframes name with
      | true => simp [selectors, selectorsAt, hname]
      | false => simp [selectors, selectorsAt, hname, Purged.wrap, selectors_purge allow children]
  | .declaration _ => by simp [purgeNode, reachedAt, selectors, selectorsAt]
  | .comment _ => by simp [purgeNode, reachedAt, selectors, selectorsAt]
  | .statement _ _ => by simp [purgeNode, reachedAt, selectors, selectorsAt]
termination_by structural n => n

/-- The selectors that are left are those of the rules at which purging looks, without the doomed
ones and rewritten. -/
theorem selectors_purge (allow : AllowList) : (nodes : List Node) →
    selectors (purge allow nodes).nodes =
      ((reached allow nodes).filter fun s => !isDoomed allow s).map (rewritten allow)
  | [] => by simp [purge_nil, reached, selectors]
  | n :: ns => by
      rw [nodes_purge_cons, reached, List.filter_append, List.map_append,
        ← selectors_purgeNode allow n, ← selectors_purge allow ns, selectors_append]
termination_by structural nodes => nodes

end

/-! ## Purging as a whole -/

/-- What is left of a selector is read as its allowed branches. -/
theorem readList_rewritten {allow : AllowList} {selector : String} {branches : List Branch}
    (h : isDoomed allow selector = false) (hread : readList selector = .ok branches)
    (hsome : branches? selector = some branches) :
    readList (rewritten allow selector) = .ok (branches.filter (branchAllowed allow)) := by
  have hkept : branches.filter (branchAllowed allow) ≠ [] := by
    intro hnil
    rw [List.filter_eq_nil_iff] at hnil
    have hdoomed : isDoomed allow selector = true := by
      simpa [isDoomed, hsome] using hnil
    rw [h] at hdoomed
    cases hdoomed
  rw [rewritten, hsome]
  refine Selector.readList_join hkept ?_
  intro b hb
  exact Selector.standing_of_readList hread (List.mem_of_mem_filter hb)

/-- What is left of a selector is clean. -/
theorem clean_rewritten {allow : AllowList} {selector : String}
    (h : isDoomed allow selector = false) : Clean allow (rewritten allow selector) := by
  rcases outcome_cases allow selector with ⟨hblank, hnone, -⟩ | ⟨e, -, hread, hnone, -⟩ |
    ⟨branches, -, hread, hsome, -⟩
  · rw [rewritten, hnone]
    exact .inl hblank
  · rw [rewritten, hnone]
    exact .inr (.inl ⟨e, hread⟩)
  · refine .inr (.inr ⟨_, readList_rewritten h hread hsome, ?_⟩)
    intro b hb
    exact (List.mem_filter.1 hb).2

/-- Purging leaves clean selectors only, prunes the tree and nothing else, and reports on the rules
at which it looks. -/
theorem purge_spec (allow : AllowList) (nodes : List Node) :
    (∀ selector ∈ selectors (purge allow nodes).nodes, Clean allow selector) ∧
      (∀ after, Pruned allow nodes after ↔ after = (purge allow nodes).nodes) ∧
      (purge allow nodes).report =
        { rulesRemoved := (reached allow nodes).countP (isDoomed allow)
          branchesRemoved := ((reached allow nodes).map (disallowed allow)).sum
          rulesSkipped := (reached allow nodes).countP isUnreadable } := by
  refine ⟨?_, ?_, report_purge allow nodes⟩
  · intro selector hselector
    rw [selectors_purge] at hselector
    obtain ⟨s, hs, rfl⟩ := List.mem_map.1 hselector
    exact clean_rewritten (by simpa using (List.mem_filter.1 hs).2)
  · intro after
    constructor
    · intro h
      exact h.eq_purge
    · rintro rfl
      exact pruned_purge allow nodes

end Stylesheet.Purge
