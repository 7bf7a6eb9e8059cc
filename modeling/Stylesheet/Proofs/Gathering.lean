import Mathlib.Data.List.Basic
import Mathlib.Data.List.Induction

/-!
# Gathering by key

Layers are gathered by name and media blocks by condition, in the same way: items are added one after
the other, and an item goes to the end of the group with its key, or becomes a new group at the end
(`Gathers`).  What comes of it can be said without the walk: there is one group for each distinct key,
in the order in which the keys occur first, and it holds what the items with this key hold, in their
order (`Gathers.foldl_eq`).  No item is lost or doubled by it (`flatMap_filter_perm`), and items that stand
grouped already stay as they are (`flatMap_filter_eraseDups`).

The distinct keys are `List.eraseDups` of all keys.
-/

namespace Stylesheet

/-! ## Distinct names -/

/-- A name at the end of a list is left if it is a new one. -/
theorem eraseDups_append_singleton (names : List String) (name : String) :
    (names ++ [name]).eraseDups = names.eraseDups ++ if name ∈ names then [] else [name] := by
  rw [List.eraseDups_append, List.removeAll]
  by_cases hmem : name ∈ names
  · rw [if_pos hmem, List.filter_cons_of_neg (by simpa using hmem)]
    rfl
  · rw [if_neg hmem, List.filter_cons_of_pos (by simpa using hmem), List.filter_nil,
      List.eraseDups_cons]
    rfl

/-- The distinct names of a list stand in the order in which they occur first. -/
theorem pairwise_eraseDups (names : List String) :
    names.eraseDups.Pairwise fun a b => names.idxOf a < names.idxOf b := by
  induction names using List.reverseRecOn with
  | nil => exact .nil
  | append_singleton names name ih =>
      have hbefore : names.eraseDups.Pairwise fun a b =>
          (names ++ [name]).idxOf a < (names ++ [name]).idxOf b := by
        refine ih.imp_of_mem fun {a b} ha hb hlt => ?_
        rw [List.idxOf_append_of_mem (List.mem_eraseDups.1 ha),
          List.idxOf_append_of_mem (List.mem_eraseDups.1 hb)]
        exact hlt
      rw [eraseDups_append_singleton]
      split
      · rwa [List.append_nil]
      · next hnew =>
          refine List.pairwise_append.2 ⟨hbefore, List.pairwise_singleton _ _, ?_⟩
          intro a ha b hb
          obtain rfl := List.mem_singleton.1 hb
          have hmem := List.mem_eraseDups.1 ha
          rw [List.idxOf_append_of_mem hmem, List.idxOf_append_of_notMem hnew]
          exact Nat.lt_add_right _ (List.idxOf_lt_length_of_mem hmem)

theorem nodup_eraseDups (names : List String) : names.eraseDups.Nodup := by
  refine (pairwise_eraseDups names).imp fun {a b} hlt => ?_
  rintro rfl
  exact Nat.lt_irrefl _ hlt

/-- A list without repetitions has only distinct names. -/
theorem eraseDups_eq_self {names : List String} (h : names.Nodup) : names.eraseDups = names := by
  induction names using List.reverseRecOn with
  | nil => rfl
  | append_singleton names name ih =>
      obtain ⟨hnames, -, hnew⟩ := List.nodup_append.1 h
      have hnotMem : name ∉ names := fun hmem => hnew name hmem name (List.mem_singleton_self _) rfl
      rw [eraseDups_append_singleton, ih hnames, if_neg hnotMem]

theorem eraseDups_filter (p : String → Bool) (names : List String) :
    (names.filter p).eraseDups = names.eraseDups.filter p := by
  induction names using List.reverseRecOn with
  | nil => rfl
  | append_singleton names name ih =>
      rw [List.filter_append, eraseDups_append_singleton, List.filter_append, ← ih]
      cases hp : p name with
      | false =>
          rw [List.filter_cons_of_neg (by simp [hp]), List.filter_nil, List.append_nil]
          split
          · exact (List.append_nil _).symm
          · rw [List.filter_cons_of_neg (by simp [hp]), List.filter_nil, List.append_nil]
      | true =>
          have hmem : name ∈ names.filter p ↔ name ∈ names := by
            rw [List.mem_filter, and_iff_left hp]
          rw [List.filter_cons_of_pos hp, List.filter_nil, eraseDups_append_singleton]
          simp only [hmem]
          split
          · rfl
          · rw [List.filter_cons_of_pos hp, List.filter_nil]

/-! ## Groups -/

/-- To add an item to some groups is to put what it holds at the end of the group with its key, or into
a new group at the end. -/
structure Gathers {ι α γ : Type} (key : ι → String) (held : ι → List α) (make : String → List α → γ)
    (add : ι → List γ → List γ) : Prop where
  /-- The first group. -/
  nil : ∀ item, add item [] = [make (key item) (held item)]
  /-- The group has the key of the item, or the item goes on to the others. -/
  cons : ∀ item name contents groups, add item (make name contents :: groups) =
    if name = key item then make name (contents ++ held item) :: groups
    else make name contents :: add item groups

namespace Gathers

variable {ι α γ : Type} {key : ι → String} {held : ι → List α} {make : String → List α → γ}
variable {add : ι → List γ → List γ}

/-- An item goes to the group with its key, or becomes a new one. -/
theorem add_map (h : Gathers key held make add) (item : ι) {names : List String}
    (hnodup : names.Nodup) (contents : String → List α) :
    add item (names.map fun name => make name (contents name)) =
      (names.map fun name => make name (contents name ++ if key item = name then held item else [])) ++
        if key item ∈ names then [] else [make (key item) (held item)] := by
  induction names with
  | nil => exact h.nil item
  | cons name names ih =>
      obtain ⟨hname, hnames⟩ := List.nodup_cons.1 hnodup
      rw [List.map_cons, h.cons]
      by_cases heq : name = key item
      · subst heq
        have hothers : ∀ other ∈ names, make other (contents other) =
            make other (contents other ++ if key item = other then held item else []) := by
          intro other hother
          rw [if_neg, List.append_nil]
          rintro rfl
          exact hname hother
        rw [if_pos rfl, List.map_congr_left hothers, if_pos List.mem_cons_self, List.append_nil,
          List.map_cons, if_pos rfl]
      · have hmem : key item ∈ name :: names ↔ key item ∈ names := by
          rw [List.mem_cons, or_iff_right (Ne.symm heq)]
        rw [if_neg heq, ih hnames, List.map_cons, if_neg (Ne.symm heq), List.append_nil,
          List.cons_append]
        simp only [hmem]

/-- Items that are added one after the other make one group for each distinct key, with what the items
with this key hold. -/
theorem foldl_eq (h : Gathers key held make add) (items : List ι) :
    items.foldl (fun groups item => add item groups) [] =
      (items.map key).eraseDups.map fun name =>
        make name ((items.filter fun item => key item = name).flatMap held) := by
  induction items using List.reverseRecOn with
  | nil => rfl
  | append_singleton items item ih =>
      have hcontents : ∀ name,
          ((items ++ [item]).filter fun item => key item = name).flatMap held =
            (items.filter fun item => key item = name).flatMap held ++
              if key item = name then held item else [] := by
        intro name
        rw [List.filter_append, List.flatMap_append, List.filter_singleton]
        by_cases heq : key item = name
        · rw [decide_eq_true heq, if_pos heq, cond_true, List.flatMap_singleton]
        · rw [decide_eq_false heq, if_neg heq, cond_false, List.flatMap_nil]
      rw [List.foldl_append, List.foldl_cons, List.foldl_nil, ih, h.add_map item (nodup_eraseDups _),
        List.map_append, List.map_singleton, eraseDups_append_singleton, List.map_append]
      simp only [hcontents, List.mem_eraseDups]
      refine congrArg (_ ++ ·) ?_
      by_cases hmem : key item ∈ items.map key
      · rw [if_pos hmem, if_pos hmem, List.map_nil]
      · have hnone : (items.filter fun other => key other = key item) = [] := by
          rw [List.filter_eq_nil_iff]
          intro other hother heq
          exact hmem (List.mem_map.2 ⟨other, hother, of_decide_eq_true heq⟩)
        rw [if_neg hmem, if_neg hmem, List.map_singleton, hnone, if_pos rfl, List.flatMap_nil,
          List.nil_append]

end Gathers

/-- Items taken key by key are all items, each once. -/
theorem flatMap_filter_perm {ι : Type} (key : ι → String) {names : List String} {items : List ι}
    (hnodup : names.Nodup) (hkeys : ∀ item ∈ items, key item ∈ names) :
    (names.flatMap fun name => items.filter fun item => key item = name).Perm items := by
  induction names generalizing items with
  | nil =>
      obtain rfl : items = [] :=
        List.eq_nil_iff_forall_not_mem.2 fun item hitem => List.not_mem_nil (hkeys item hitem)
      exact .nil
  | cons name names ih =>
      obtain ⟨hname, hnames⟩ := List.nodup_cons.1 hnodup
      have hothers : (names.flatMap fun other => items.filter fun item => key item = other) =
          names.flatMap fun other =>
            (items.filter fun item => !decide (key item = name)).filter fun item =>
              key item = other := by
        refine List.flatMap_congr fun other hother => ?_
        rw [List.filter_filter]
        refine List.filter_congr fun item _ => ?_
        by_cases heq : key item = other
        · have hne : key item ≠ name := by
            rintro rfl
            exact hname (heq ▸ hother)
          rw [decide_eq_true heq, decide_eq_false hne]
          rfl
        · rw [decide_eq_false heq]
          rfl
      have hrest : ∀ item ∈ items.filter fun item => !decide (key item = name), key item ∈ names := by
        intro item hitem
        obtain ⟨hmem, hne⟩ := List.mem_filter.1 hitem
        exact (List.mem_cons.1 (hkeys item hmem)).resolve_left (by simpa using hne)
      rw [List.flatMap_cons, hothers]
      exact ((ih hnames hrest).append_left _).trans (List.filter_append_perm _ items)

/-! ## Grouped lists -/

section Grouped

variable {ι : Type} {key : ι → String} {names : List String} {held : String → List ι}
variable (hnodup : names.Nodup) (hkey : ∀ name, ∀ item ∈ held name, key item = name)

include hnodup hkey

/-- What is held for a name is what has the name as its key. -/
theorem filter_key_flatMap {name : String} (hname : name ∈ names) :
    ((names.flatMap held).filter fun item => key item = name) = held name := by
  have hself : ((held name).filter fun item => key item = name) = held name :=
    List.filter_eq_self.2 fun item hitem => decide_eq_true (hkey name item hitem)
  have hother : ∀ other, other ≠ name → ((held other).filter fun item => key item = name) = [] := by
    intro other hne
    refine List.filter_eq_nil_iff.2 fun item hitem heq => hne ?_
    rw [← hkey other item hitem, of_decide_eq_true heq]
  induction names with
  | nil => cases hname
  | cons first names ih =>
      obtain ⟨hfirst, hnames⟩ := List.nodup_cons.1 hnodup
      rw [List.flatMap_cons, List.filter_append]
      by_cases heq : first = name
      · subst heq
        have hnone : ((names.flatMap held).filter fun item => key item = first) = [] := by
          rw [List.filter_flatMap, List.flatMap_eq_nil_iff]
          intro other hmem
          refine hother other ?_
          rintro rfl
          exact hfirst hmem
        rw [hself, hnone, List.append_nil]
      · rw [hother first heq, List.nil_append]
        exact ih hnames ((List.mem_cons.1 hname).resolve_left (Ne.symm heq))

/-- The distinct keys are the names for which something is held. -/
theorem eraseDups_map_key_flatMap :
    ((names.flatMap held).map key).eraseDups = names.filter fun name => !(held name).isEmpty := by
  induction names using List.reverseRecOn with
  | nil => rfl
  | append_singleton names name ih =>
      obtain ⟨hnames, -, hnew⟩ := List.nodup_append.1 hnodup
      have hfresh : ((held name).map key).removeAll ((names.flatMap held).map key) =
          (held name).map key := by
        refine List.filter_eq_self.2 fun found hfound => ?_
        obtain ⟨item, hitem, rfl⟩ := List.mem_map.1 hfound
        rw [hkey name item hitem, Bool.not_eq_true', ← Bool.not_eq_true, List.elem_iff]
        intro hmem
        obtain ⟨item', hitem', heq⟩ := List.mem_map.1 hmem
        obtain ⟨other, hother, hheld⟩ := List.mem_flatMap.1 hitem'
        refine hnew other hother name (List.mem_singleton_self _) ?_
        rw [← hkey other item' hheld, heq]
      have hone : ((held name).map key).eraseDups = if (held name).isEmpty then [] else [name] := by
        have hkeys := hkey name
        cases hlist : held name with
        | nil => rfl
        | cons item items =>
            rw [hlist, List.forall_mem_cons] at hkeys
            have hrest : (items.map key).filter (fun found => !(found == name)) = [] := by
              refine List.filter_eq_nil_iff.2 fun found hfound => ?_
              obtain ⟨item', hitem', rfl⟩ := List.mem_map.1 hfound
              simp [hkeys.2 item' hitem']
            rw [List.map_cons, hkeys.1, List.eraseDups_cons, hrest]
            rfl
      rw [List.flatMap_append, List.map_append, List.eraseDups_append, ih hnames,
        List.flatMap_singleton, hfresh, hone, List.filter_append, List.filter_singleton]
      cases (held name).isEmpty with
      | true => rfl
      | false => rfl

/-- What is grouped already stays as it is when it is grouped again. -/
theorem flatMap_filter_eraseDups :
    (((names.flatMap held).map key).eraseDups.flatMap fun name =>
      (names.flatMap held).filter fun item => key item = name) = names.flatMap held := by
  have hheld : ((names.filter fun name => !(held name).isEmpty).flatMap fun name =>
      (names.flatMap held).filter fun item => key item = name) =
        (names.filter fun name => !(held name).isEmpty).flatMap held :=
    List.flatMap_congr fun name hname =>
      filter_key_flatMap hnodup hkey (List.mem_filter.1 hname).1
  rw [eraseDups_map_key_flatMap hnodup hkey, hheld]
  clear hheld hnodup
  induction names with
  | nil => rfl
  | cons name names ih =>
      rw [List.filter_cons]
      cases hlist : held name with
      | nil => simpa [hlist] using ih
      | cons item items => simpa [hlist] using ih

end Grouped

end Stylesheet
