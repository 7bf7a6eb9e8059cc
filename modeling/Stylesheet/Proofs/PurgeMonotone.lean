import Stylesheet.Proofs.AllowListEntries
import Stylesheet.Proofs.PurgeTwice

/-!
# Purging with a longer allow-list

An allow-list that accepts more leaves more of a tree.  There are three steps.

* *Verdicts.*  A nested selector list sets the verdict anew, whatever came before, so a verdict does
  not only go down on its way through a branch.  But it is set at the same parts for every
  allow-list, and each time to something that can only grow with the list (`Rises`).  So a branch
  that is allowed stays allowed, under `:not` as well as under `:is`.
* *Selectors.*  Both rewritten selectors are read back as what was kept, and what the shorter list
  keeps is a sub-sequence of what the longer one keeps (`narrows_rewritten`).
* *Trees.*  `Embeds` finds the nodes of one tree in another, in order and at every depth.  A rule that
  only the longer list keeps is passed over with all that is in it.

Entries that are added to an allow-list only add answers (`accepts_extend`), so the law covers every
safelist with further entries behind it.
-/

namespace Stylesheet.AllowList

/-! ## Longer lists -/

/-- Every token that the first list accepts is accepted by the second. -/
def Within (a b : AllowList) : Prop := ∀ token, a.accepts token = true → b.accepts token = true

theorem within_extend (list : AllowList) (matchers : List Matcher) :
    list.Within (list.extend matchers) := by
  intro token h
  rw [accepts_extend, h]
  rfl

/-- Further entries of a safelist only add answers. -/
theorem within_allowList [Pattern.Engine] (text : String) (safelist extra : List Source.SafelistEntry) :
    (Source.allowList text safelist).Within (Source.allowList text (safelist ++ extra)) := by
  have hextend : Source.allowList text (safelist ++ extra) =
      (Source.allowList text safelist).extend
        (extra.filterMap Source.SafelistEntry.matcher?) := by
    rw [Source.allowList, List.filterMap_append, ← List.append_assoc, ofMatchers, extend_append]
    rfl
  rw [hextend]
  exact within_extend _ _

end Stylesheet.AllowList

namespace Stylesheet.Purge

open Stylesheet.Selector (Part Branch readList)

/-! ## Verdicts -/

/-- Neither verdict is given yet, or both are and the first holds only if the second does. -/
inductive Rises : Option Bool → Option Bool → Prop where
  /-- No part counted yet. -/
  | unset : Rises none none
  /-- Both verdicts are given. -/
  | given {x y : Bool} : (x = true → y = true) → Rises (some x) (some y)

theorem Rises.getD {u v : Option Bool} (h : Rises u v) (hu : u.getD true = true) :
    v.getD true = true := by
  cases h with
  | unset => rfl
  | given hxy => exact hxy hu

/-- A part that is looked up keeps two verdicts in order. -/
theorem Rises.and {a b : AllowList} (h : a.Within b) (token : String) {u v : Option Bool}
    (huv : Rises u v) :
    Rises (some (u.getD true && a.accepts token)) (some (v.getD true && b.accepts token)) := by
  refine .given ?_
  intro hand
  rw [Bool.and_eq_true] at hand ⊢
  exact ⟨huv.getD hand.1, h token hand.2⟩

mutual

theorem rises_verdict {a b : AllowList} (h : a.Within b) : (parts : List Part) →
    {u v : Option Bool} → Rises u v → Rises (verdict a u parts) (verdict b v parts)
  | [], _, _, huv => by
      rw [verdict, verdict]
      exact huv
  | part :: parts, _, _, huv => by
      rw [verdict, verdict]
      exact rises_verdict h parts (rises_verdictAt h part huv)
termination_by structural parts => parts

theorem rises_verdictAt {a b : AllowList} (h : a.Within b) : (part : Part) →
    {u v : Option Bool} → Rises u v → Rises (verdictAt a u part) (verdictAt b v part)
  | .functional _ branches, _, _, _ => by
      -- What the verdicts were before does not count.
      rw [verdictAt, verdictAt]
      exact .given (anyAllowed_mono h branches)
  | .tag name, _, _, huv => by
      rw [verdictAt, verdictAt]
      exact huv.and h name
  | .id name, _, _, huv => by
      rw [verdictAt, verdictAt]
      exact huv.and h ("#" ++ name)
  | .cls name, _, _, huv => by
      rw [verdictAt, verdictAt]
      exact huv.and h ("." ++ name)
  | .universal, _, _, huv => by
      rw [verdictAt, verdictAt]
      exact huv.and h "*"
  | .pseudo _ _, _, _, huv => by
      rw [verdictAt, verdictAt]
      exact huv
  | .combinator _, _, _, huv => by
      rw [verdictAt, verdictAt]
      exact huv
  | .attribute _, _, _, huv => by
      rw [verdictAt, verdictAt]
      exact huv
  | .other _, _, _, huv => by
      rw [verdictAt, verdictAt]
      exact huv
termination_by structural part => part

theorem anyAllowed_mono {a b : AllowList} (h : a.Within b) : (branches : List Branch) →
    anyAllowed a branches = true → anyAllowed b branches = true
  | [], hany => by
      rw [anyAllowed] at hany
      cases hany
  | branch :: branches, hany => by
      rw [anyAllowed, Bool.or_eq_true] at hany ⊢
      rcases hany with hbranch | hrest
      · exact .inl (branchAllowed_mono h branch hbranch)
      · exact .inr (anyAllowed_mono h branches hrest)
termination_by structural branches => branches

/-- A branch that is allowed stays allowed when more is accepted. -/
theorem branchAllowed_mono {a b : AllowList} (h : a.Within b) : (branch : Branch) →
    branchAllowed a branch = true → branchAllowed b branch = true
  | ⟨_, parts⟩, hbranch => by
      rw [branchAllowed] at hbranch ⊢
      exact (rises_verdict h parts .unset).getD hbranch
termination_by structural branch => branch

end

/-! ## Selectors -/

/-- The branches of the first selector are, by their texts and in order, among those of the second.
Selectors without branches have to be the same. -/
def Narrows (s t : String) : Prop :=
  match branches? s, branches? t with
  | some bs, some cs => (bs.map Branch.text).Sublist (cs.map Branch.text)
  | _, _ => s = t

theorem isDoomed_anti {a b : AllowList} (h : a.Within b) {selector : String}
    (ha : isDoomed a selector = false) : isDoomed b selector = false := by
  cases hbranches : branches? selector with
  | none => simp [isDoomed, hbranches]
  | some branches =>
      obtain ⟨x, hx, hallowed⟩ := (isDoomed_eq_false_iff hbranches).1 ha
      exact (isDoomed_eq_false_iff hbranches).2 ⟨x, hx, branchAllowed_mono h x hallowed⟩

/-- What the shorter list leaves of a selector is among what the longer one leaves of it. -/
theorem narrows_rewritten {a b : AllowList} (h : a.Within b) {selector : String}
    (ha : isDoomed a selector = false) : Narrows (rewritten a selector) (rewritten b selector) := by
  rw [Narrows, branches?_rewritten ha, branches?_rewritten (isDoomed_anti h ha)]
  cases hbranches : branches? selector with
  | none =>
      show rewritten a selector = rewritten b selector
      rw [rewritten_of_none hbranches, rewritten_of_none hbranches]
  | some branches =>
      show ((branches.filter (branchAllowed a)).map Branch.text).Sublist
        ((branches.filter (branchAllowed b)).map Branch.text)
      exact (List.monotone_filter_right branches fun x => branchAllowed_mono h x).map Branch.text

/-! ## Trees -/

/-- The nodes of the first list are found in the second, in order: a node is passed over in the
second list, or it is of the same kind and has the same texts as the next one of the first list, and
what is in the one is found in the other.  Only the selectors of rules may differ, as `Narrows` says.
Keyframes have to be the same with all that is in them. -/
inductive Embeds : List Node → List Node → Prop where
  /-- Nothing is found in nothing. -/
  | nil : Embeds [] []
  /-- A node is passed over. -/
  | skip {m : Node} {ns ms : List Node} : Embeds ns ms → Embeds ns (m :: ms)
  /-- A rule is found. -/
  | rule {s t : String} {children children' ns ms : List Node} :
      Narrows s t → Embeds children children' → Embeds ns ms →
      Embeds (.rule s children :: ns) (.rule t children' :: ms)
  /-- A layer is found. -/
  | layer {name : Option String} {children children' ns ms : List Node} :
      Embeds children children' → Embeds ns ms →
      Embeds (.layer name children :: ns) (.layer name children' :: ms)
  /-- A media block is found. -/
  | media {condition : String} {children children' ns ms : List Node} :
      Embeds children children' → Embeds ns ms →
      Embeds (.media condition children :: ns) (.media condition children' :: ms)
  /-- Keyframes are found. -/
  | keyframes {name params : String} {children ns ms : List Node} :
      Node.isKeyframes name = true → Embeds ns ms →
      Embeds (.atRule name params children :: ns) (.atRule name params children :: ms)
  /-- Any other at-rule is found. -/
  | atRule {name params : String} {children children' ns ms : List Node} :
      Node.isKeyframes name = false → Embeds children children' → Embeds ns ms →
      Embeds (.atRule name params children :: ns) (.atRule name params children' :: ms)
  /-- A declaration is found. -/
  | declaration {d : Declaration} {ns ms : List Node} :
      Embeds ns ms → Embeds (.declaration d :: ns) (.declaration d :: ms)
  /-- A comment is found. -/
  | comment {text : String} {ns ms : List Node} :
      Embeds ns ms → Embeds (.comment text :: ns) (.comment text :: ms)
  /-- An at-rule without a block is found. -/
  | statement {name params : String} {ns ms : List Node} :
      Embeds ns ms → Embeds (.statement name params :: ns) (.statement name params :: ms)

/-- What the shorter list leaves of a tree is found in what the longer one leaves of it. -/
theorem Pruned.embeds {a b : AllowList} (h : a.Within b) {nodes after after' : List Node}
    (ha : Pruned a nodes after) (hb : Pruned b nodes after') : Embeds after after' := by
  induction ha generalizing after' with
  | nil =>
      cases hb
      exact .nil
  | doomed _ _ ih =>
      -- The longer list may keep the rule.
      cases hb with
      | doomed _ hns => exact ih hns
      | rule _ _ hns => exact .skip (ih hns)
  | rule hdoomed _ _ ihc ih =>
      cases hb with
      | doomed hdoomed' _ =>
          rw [isDoomed_anti h hdoomed] at hdoomed'
          cases hdoomed'
      | rule _ hchildren hns => exact .rule (narrows_rewritten h hdoomed) (ihc hchildren) (ih hns)
  | layer _ _ ihc ih =>
      cases hb with
      | layer hchildren hns => exact .layer (ihc hchildren) (ih hns)
  | media _ _ ihc ih =>
      cases hb with
      | media hchildren hns => exact .media (ihc hchildren) (ih hns)
  | keyframes hname _ ih =>
      cases hb with
      | keyframes _ hns => exact .keyframes hname (ih hns)
      | atRule hname' _ _ =>
          rw [hname] at hname'
          cases hname'
  | atRule hname _ _ ihc ih =>
      cases hb with
      | keyframes hname' _ =>
          rw [hname] at hname'
          cases hname'
      | atRule _ hchildren hns => exact .atRule hname (ihc hchildren) (ih hns)
  | declaration _ ih =>
      cases hb with
      | declaration hns => exact .declaration (ih hns)
  | comment _ ih =>
      cases hb with
      | comment hns => exact .comment (ih hns)
  | statement _ ih =>
      cases hb with
      | statement hns => exact .statement (ih hns)

/-- What a shorter allow-list leaves of a tree is found in what a longer one leaves of it; so it is
for every safelist and the same one with further entries, whatever engine reads the patterns. -/
theorem embeds_purge [Pattern.Engine] :
    (∀ (a b : AllowList), a.Within b → ∀ nodes : List Node,
      Embeds (purge a nodes).nodes (purge b nodes).nodes) ∧
    (∀ (text : String) (safelist extra : List Source.SafelistEntry) (nodes : List Node),
      Embeds (purge (Source.allowList text safelist) nodes).nodes
        (purge (Source.allowList text (safelist ++ extra)) nodes).nodes) := by
  have hembeds : ∀ (a b : AllowList), a.Within b → ∀ nodes : List Node,
      Embeds (purge a nodes).nodes (purge b nodes).nodes := by
    intro a b h nodes
    exact (pruned_purge a nodes).embeds h (pruned_purge b nodes)
  refine ⟨hembeds, ?_⟩
  intro text safelist extra nodes
  exact hembeds _ _ (AllowList.within_allowList text safelist extra) nodes

/-- With one entry more, a branch, a nested rule and a rule with a nested list stay. -/
theorem embeds_purge_nested :
    (AllowList.ofMatchers [.literal ".a"]).Within
        (AllowList.ofMatchers [.literal ".a", .literal ".b"]) ∧
      Embeds
        [.rule ".a" [.declaration ⟨"top", "0", false⟩], .comment "end"]
        [.rule ".a, .b" [.rule ".b" [], .declaration ⟨"top", "0", false⟩], .rule ".c:not(.b)" [],
          .comment "end"] := by
  have hwithin : (AllowList.ofMatchers [.literal ".a"]).Within
      (AllowList.ofMatchers [.literal ".a", .literal ".b"]) :=
    AllowList.within_extend (AllowList.ofMatchers [.literal ".a"]) [.literal ".b"]
  have hembeds := embeds_purge.1 _ _ hwithin
    [.rule ".a,.c , .b" [.rule ".b" [], .declaration ⟨"top", "0", false⟩], .rule ".c:not(.b)" [],
      .comment "end"]
  have hshort : (purge (AllowList.ofMatchers [.literal ".a"])
      [.rule ".a,.c , .b" [.rule ".b" [], .declaration ⟨"top", "0", false⟩], .rule ".c:not(.b)" [],
        .comment "end"]).nodes =
      [.rule ".a" [.declaration ⟨"top", "0", false⟩], .comment "end"] := by decide +kernel
  have hlong : (purge (AllowList.ofMatchers [.literal ".a", .literal ".b"])
      [.rule ".a,.c , .b" [.rule ".b" [], .declaration ⟨"top", "0", false⟩], .rule ".c:not(.b)" [],
        .comment "end"]).nodes =
      [.rule ".a, .b" [.rule ".b" [], .declaration ⟨"top", "0", false⟩], .rule ".c:not(.b)" [],
        .comment "end"] := by decide +kernel
  rw [hshort, hlong] at hembeds
  exact ⟨hwithin, hembeds⟩

end Stylesheet.Purge
