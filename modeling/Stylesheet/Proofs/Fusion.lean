import Mathlib.Data.List.Nodup
import Mathlib.Data.List.Perm.Basic
import Mathlib.Data.List.Sort
import Stylesheet.Shorthand

/-!
# What fusing does to a body

`Family.fuse?` works with positions: it looks up where each longhand is declared, checks the guards
at these positions, and rebuilds the body around one of them.  Here the same is said without
positions.

* `Body.declared` lists the declarations of a property.  A longhand that may be fused has at most one.
* The *contributors* of a family are the declarations of its longhands, and `Family.rest` are the
  nodes that are none.
* `Family.Fuses` cuts a body in two at the declaration whose place the shorthand takes, and says what
  the guards have made sure of.  The main result is `Family.fuse?_eq_some`: a body that is fused can
  be cut so, and becomes the rest of its front, the shorthand, and the rest of its back.
-/

namespace Stylesheet

theorem Node.declaration?_eq_some_iff {node : Node} {d : Declaration} :
    node.declaration? = some d ↔ node = .declaration d := by
  cases node with
  | declaration e => simp [Node.declaration?]
  | layer | media | rule | comment | statement | atRule => simp [Node.declaration?]

namespace Body

/-! ## Declarations -/

/-- The declarations of a body in their order. -/
def declarations (body : List Node) : List Declaration := body.filterMap Node.declaration?

/-- The declarations of a property in their order. -/
def declared (property : String) (body : List Node) : List Declaration :=
  (declarations body).filter fun d => d.property == property

/-- The value of a property, from its first declaration. -/
def value? (property : String) (body : List Node) : Option String :=
  (declared property body).head?.map Declaration.value

@[simp] theorem declarations_append (a b : List Node) :
    declarations (a ++ b) = declarations a ++ declarations b := List.filterMap_append

@[simp] theorem declarations_declaration (d : Declaration) (body : List Node) :
    declarations (.declaration d :: body) = d :: declarations body := rfl

theorem mem_declarations {body : List Node} {d : Declaration} :
    d ∈ declarations body ↔ .declaration d ∈ body := by
  simp [declarations, Node.declaration?_eq_some_iff]

theorem mem_declared {property : String} {body : List Node} {d : Declaration} :
    d ∈ declared property body ↔ .declaration d ∈ body ∧ d.property = property := by
  rw [declared, List.mem_filter, mem_declarations, beq_iff_eq]

theorem count_eq_length (property : String) (body : List Node) :
    count property body = (declared property body).length := by
  rw [count, declared, ← List.countP_eq_length_filter, declarations, List.countP_filterMap]
  refine List.countP_congr fun node _ => ?_
  cases node.declaration? with
  | none => rfl
  | some d => rfl

theorem declarationAt?_eq_some_iff {body : List Node} {i : Nat} {d : Declaration} :
    declarationAt? body i = some d ↔ body[i]? = some (.declaration d) := by
  simp [declarationAt?, Option.bind_eq_some_iff, Node.declaration?_eq_some_iff]

/-! ## Finding the only declaration -/

/-- A body that does not count a property does not declare it. -/
theorem property_ne_of_count_eq_zero {property : String} {body : List Node} (h : count property body = 0)
    {j : Nat} {d : Declaration} (hj : body[j]? = some (.declaration d)) : d.property ≠ property := by
  intro hd
  have hnot := List.countP_eq_zero.1 h _ (List.mem_of_getElem? hj)
  exact hnot (by simp [Node.declaration?, hd])

/-- Where a property is found that is declared at most once. -/
theorem findFrom_eq_some_iff {property : String} {body : List Node} (h : count property body ≤ 1)
    {position i : Nat} :
    findFrom property position body = some i ↔
      ∃ j d, i = position + j ∧ body[j]? = some (.declaration d) ∧ d.property = property := by
  induction body generalizing position i with
  | nil => simp [findFrom]
  | cons node body ih =>
      rw [count, List.countP_cons] at h
      cases hnode : node.declaration?.any fun d => d.property == property with
      | false =>
          have hskip : findFrom property position (node :: body) =
              findFrom property (position + 1) body := by
            rw [findFrom, hnode]
            cases findFrom property (position + 1) body with
            | none => rfl
            | some found => rfl
          rw [hskip, ih (by rw [count]; omega)]
          constructor
          · rintro ⟨j, d, rfl, hj, hd⟩
            exact ⟨j + 1, d, by omega, hj, hd⟩
          · rintro ⟨j, d, rfl, hj, hd⟩
            cases j with
            | zero =>
                obtain rfl : node = .declaration d := by simpa using hj
                simp [Node.declaration?, hd] at hnode
            | succ j => exact ⟨j, d, by omega, hj, hd⟩
      | true =>
          -- All other nodes declare something else.
          have hzero : count property body = 0 := by
            rw [if_pos hnode] at h
            rw [count]
            omega
          have hlater : findFrom property (position + 1) body = none := by
            rw [Option.eq_none_iff_forall_not_mem]
            intro found hfound
            obtain ⟨j, d, -, hj, hd⟩ := (ih (by omega)).1 hfound
            exact property_ne_of_count_eq_zero hzero hj hd
          obtain ⟨d, hd, hproperty⟩ : ∃ d, node.declaration? = some d ∧ d.property = property := by
            simpa [Option.any_eq_true] using hnode
          rw [Node.declaration?_eq_some_iff] at hd
          subst hd
          rw [findFrom, hlater, hnode, if_pos rfl]
          constructor
          · intro hi
            exact ⟨0, d, by simpa using hi.symm, rfl, hproperty⟩
          · rintro ⟨j, e, rfl, hj, he⟩
            cases j with
            | zero => rfl
            | succ j => exact absurd he (property_ne_of_count_eq_zero hzero hj)

theorem find?_eq_some_iff {property : String} {body : List Node} (h : count property body ≤ 1)
    {i : Nat} :
    find? property body = some i ↔
      ∃ d, body[i]? = some (.declaration d) ∧ d.property = property := by
  rw [find?, findFrom_eq_some_iff h]
  constructor
  · rintro ⟨j, d, rfl, hj, hd⟩
    exact ⟨d, by simpa using hj, hd⟩
  · rintro ⟨d, hi, hd⟩
    exact ⟨i, d, by simp, hi, hd⟩

/-- A property that is declared at most once has this declaration or none. -/
theorem declared_eq_singleton {property : String} {body : List Node}
    (h : count property body ≤ 1) {d : Declaration} (hd : d ∈ declared property body) :
    declared property body = [d] := by
  rw [count_eq_length] at h
  cases hlist : declared property body with
  | nil =>
      rw [hlist] at hd
      cases hd
  | cons e es =>
      rw [hlist] at h hd
      have hes : es = [] := List.length_eq_zero_iff.1 (by simpa using h)
      subst hes
      rw [List.mem_singleton.1 hd]

/-- The only declaration of a property with a value. -/
theorem declared_of_value? {property value : String} {body : List Node}
    (h : count property body ≤ 1) (hvalue : value? property body = some value) :
    ∃ d : Declaration, declared property body = [d] ∧ d.property = property ∧ d.value = value := by
  obtain ⟨d, hd, hdvalue⟩ := Option.map_eq_some_iff.1 hvalue
  have hmem : d ∈ declared property body := List.mem_of_head? hd
  exact ⟨d, declared_eq_singleton h hmem, (mem_declared.1 hmem).2, hdvalue⟩

/-- What stands at the position of a property is its declaration. -/
theorem find?_bind_declarationAt? {property : String} {body : List Node}
    (h : count property body ≤ 1) :
    (find? property body >>= declarationAt? body) = (declared property body).head? := by
  cases hfind : find? property body with
  | some i =>
      obtain ⟨d, hi, hd⟩ := (find?_eq_some_iff h).1 hfind
      have hmem : d ∈ declared property body := mem_declared.2 ⟨List.mem_of_getElem? hi, hd⟩
      rw [declared_eq_singleton h hmem]
      exact declarationAt?_eq_some_iff.2 hi
  | none =>
      cases hlist : declared property body with
      | nil => rfl
      | cons d ds =>
          have hmem : d ∈ declared property body := by simp [hlist]
          obtain ⟨hd, hproperty⟩ := mem_declared.1 hmem
          obtain ⟨i, hi⟩ := List.mem_iff_getElem?.1 hd
          have hsome := (find?_eq_some_iff h).2 ⟨d, hi, hproperty⟩
          rw [hfind] at hsome
          cases hsome

/-! ## Replacing -/

/-- The nodes of a body that starts at a position, without those at the given positions. -/
def kept (removed : List Nat) (position : Nat) (body : List Node) : List Node :=
  ((body.zipIdx position).filter fun x => !removed.contains x.2).map Prod.fst

theorem kept_cons (removed : List Nat) (position : Nat) (node : Node) (body : List Node) :
    kept removed position (node :: body) =
      (if removed.contains position then [] else [node]) ++ kept removed (position + 1) body := by
  rw [kept, List.zipIdx_cons, List.filter_cons]
  cases removed.contains position with
  | true => rfl
  | false => rfl

/-- Behind the anchor nothing is put in. -/
theorem replaceFrom_of_lt {removed : List Nat} {anchor position : Nat} {d : Declaration}
    {body : List Node} (h : anchor < position) :
    replaceFrom removed anchor d position body = kept removed position body := by
  induction body generalizing position with
  | nil =>
      rw [replaceFrom, if_neg (by omega)]
      rfl
  | cons node body ih =>
      rw [replaceFrom, if_neg (by omega), ih (by omega), kept_cons]
      rfl

theorem replaceFrom_eq {removed : List Nat} {anchor position : Nat} {d : Declaration}
    {body : List Node} (h : position ≤ anchor) :
    replaceFrom removed anchor d position body =
      kept removed position (body.take (anchor - position)) ++
        .declaration d :: kept removed anchor (body.drop (anchor - position)) := by
  induction body generalizing position with
  | nil =>
      rw [replaceFrom, if_pos h, List.take_nil, List.drop_nil]
      rfl
  | cons node body ih =>
      rcases Nat.eq_or_lt_of_le h with rfl | hlt
      · rw [replaceFrom, if_pos rfl, replaceFrom_of_lt (Nat.lt_succ_self _), Nat.sub_self,
          List.take_zero, List.drop_zero, kept_cons]
        rfl
      · obtain ⟨k, hk⟩ : ∃ k, anchor - position = k + 1 := ⟨anchor - position - 1, by omega⟩
        have hrest : anchor - (position + 1) = k := by omega
        rw [replaceFrom, if_neg (by omega), ih hlt, hk, hrest, List.take_succ_cons,
          List.drop_succ_cons, kept_cons]
        simp

/-- The new declaration stands between what is kept from before the anchor and what is kept from
the anchor on. -/
theorem replaceWith_eq (body : List Node) (removed : List Nat) (anchor : Nat) (d : Declaration) :
    replaceWith body removed anchor d =
      kept removed 0 (body.take anchor) ++ .declaration d :: kept removed anchor (body.drop anchor) :=
  replaceFrom_eq (Nat.zero_le anchor)

/-- Positions that are those of some nodes may be forgotten. -/
theorem kept_eq_filter {removed : List Nat} {position : Nat} {body : List Node} {p : Node → Bool}
    (h : ∀ i node, body[i]? = some node → removed.contains (position + i) = p node) :
    kept removed position body = body.filter fun node => !p node := by
  induction body generalizing position with
  | nil => rfl
  | cons node body ih =>
      have hhead : removed.contains position = p node := h 0 node rfl
      have htail : kept removed (position + 1) body = body.filter fun node => !p node := by
        refine ih fun i n hi => ?_
        rw [← h (i + 1) n hi]
        congr 1
        omega
      rw [kept_cons, hhead, htail, List.filter_cons]
      cases p node with
      | true => rfl
      | false => rfl

/-! ### Positions that are kept -/

/-- The nodes of a body that starts at a position, at the positions of a class. -/
def nodesFrom (p : Nat → Bool) (position : Nat) (body : List Node) : List Node :=
  ((body.zipIdx position).filter fun x => p x.2).map Prod.fst

/-- The nodes at the positions of a class, in the order of the body. -/
def nodesAt (p : Nat → Bool) (body : List Node) : List Node := nodesFrom p 0 body

/-- A body is cut in front of a position. -/
theorem zipIdx_cut (body : List Node) (anchor : Nat) :
    body.zipIdx = (body.take anchor).zipIdx ++ (body.drop anchor).zipIdx anchor := by
  rcases Nat.le_total anchor body.length with hle | hle
  · have happend : (body.take anchor ++ body.drop anchor).zipIdx =
        (body.take anchor).zipIdx ++ (body.drop anchor).zipIdx (0 + (body.take anchor).length) :=
      List.zipIdx_append
    rwa [List.take_append_drop, List.length_take, Nat.min_eq_left hle, Nat.zero_add] at happend
  · rw [List.take_of_length_le hle, List.drop_eq_nil_of_le hle, List.zipIdx_nil, List.append_nil]

/-- Where a class is one class before the anchor and another one from there on, the body can be cut at the
anchor. -/
theorem nodesAt_eq_append {p front back : Nat → Bool} {anchor : Nat}
    (hfront : ∀ i, i < anchor → p i = front i) (hback : ∀ i, anchor ≤ i → p i = back i)
    (body : List Node) :
    nodesAt p body =
      nodesAt front (body.take anchor) ++ nodesFrom back anchor (body.drop anchor) := by
  have hbefore : ∀ x ∈ (body.take anchor).zipIdx, p x.2 = front x.2 := by
    intro x hx
    have hlt := List.snd_lt_of_mem_zipIdx hx
    rw [List.length_take] at hlt
    exact hfront x.2 (by omega)
  have hbehind : ∀ x ∈ (body.drop anchor).zipIdx anchor, p x.2 = back x.2 :=
    fun x hx => hback x.2 (List.le_snd_of_mem_zipIdx hx)
  rw [nodesAt, nodesFrom, zipIdx_cut body anchor, List.filter_append, List.filter_congr hbefore,
    List.filter_congr hbehind, List.map_append]
  rfl

theorem nodesFrom_false (position : Nat) (body : List Node) :
    nodesFrom (fun _ => false) position body = [] := by
  rw [nodesFrom, List.filter_false, List.map_nil]

section Cut

variable (p : Nat → Bool) (anchor : Nat) (body : List Node)

theorem nodesAt_cut :
    nodesAt p body = nodesAt p (body.take anchor) ++ nodesFrom p anchor (body.drop anchor) :=
  nodesAt_eq_append (fun _ _ => rfl) (fun _ _ => rfl) body

theorem nodesAt_before :
    nodesAt (fun i => i < anchor && p i) body = nodesAt p (body.take anchor) := by
  have hcut : nodesAt (fun i => i < anchor && p i) body =
      nodesAt p (body.take anchor) ++ nodesFrom (fun _ => false) anchor (body.drop anchor) :=
    nodesAt_eq_append (fun i hi => by rw [decide_eq_true hi, Bool.true_and])
      (fun i hi => by rw [decide_eq_false (by omega), Bool.false_and]) body
  rw [hcut, nodesFrom_false, List.append_nil]

theorem nodesAt_behind :
    nodesAt (fun i => anchor ≤ i && p i) body = nodesFrom p anchor (body.drop anchor) := by
  have hcut : nodesAt (fun i => anchor ≤ i && p i) body =
      nodesAt (fun _ => false) (body.take anchor) ++ nodesFrom p anchor (body.drop anchor) :=
    nodesAt_eq_append (fun i hi => by rw [decide_eq_false (by omega), Bool.false_and])
      (fun i hi => by rw [decide_eq_true hi, Bool.true_and]) body
  rw [hcut, nodesAt, nodesFrom_false, List.nil_append]

end Cut

/-- There are as many nodes as positions. -/
theorem length_nodesAt (p : Nat → Bool) (body : List Node) :
    (nodesAt p body).length = (List.range body.length).countP p := by
  have hpositions : body.zipIdx.map Prod.snd = List.range body.length := by
    rw [List.zipIdx_map_snd, List.range_eq_range']
  rw [nodesAt, nodesFrom, List.length_map, ← List.countP_eq_length_filter, ← hpositions,
    List.countP_map]
  rfl

theorem replaceWith_eq_nodesAt (body : List Node) (removed : List Nat) (anchor : Nat)
    (d : Declaration) :
    replaceWith body removed anchor d =
      nodesAt (fun i => i < anchor && !removed.contains i) body ++
        .declaration d :: nodesAt (fun i => anchor ≤ i && !removed.contains i) body := by
  rw [nodesAt_before fun i => !removed.contains i, nodesAt_behind fun i => !removed.contains i]
  exact replaceWith_eq body removed anchor d

/-- The body loses the positions that are removed, each once, and gets one node. -/
theorem length_replaceWith (body : List Node) (removed : List Nat) (anchor : Nat)
    (d : Declaration) :
    (replaceWith body removed anchor d).length +
      (List.range body.length).countP removed.contains = body.length + 1 := by
  have hall : body.length = (List.range body.length).countP removed.contains +
      (List.range body.length).countP fun i => !removed.contains i := by
    simpa using List.length_eq_countP_add_countP removed.contains (l := List.range body.length)
  have hstays := length_nodesAt (fun i => !removed.contains i) body
  rw [nodesAt_cut _ anchor, List.length_append] at hstays
  rw [replaceWith_eq_nodesAt, nodesAt_before fun i => !removed.contains i,
    nodesAt_behind fun i => !removed.contains i, List.length_append, List.length_cons]
  omega

/-- Whatever the positions and the anchor are, the nodes at other positions that stand before the anchor
come first, then the new declaration, and then those that stand at the anchor or behind it.  Together they
are all nodes at other positions in their order, so the new body has the length of the old one, less the
positions that are removed, and one more. -/
theorem replaceWith_exact (body : List Node) (removed : List Nat) (anchor : Nat)
    (d : Declaration) :
    replaceWith body removed anchor d =
        nodesAt (fun i => i < anchor && !removed.contains i) body ++
          .declaration d :: nodesAt (fun i => anchor ≤ i && !removed.contains i) body ∧
      nodesAt (fun i => i < anchor && !removed.contains i) body ++
          nodesAt (fun i => anchor ≤ i && !removed.contains i) body =
        nodesAt (fun i => !removed.contains i) body ∧
      (replaceWith body removed anchor d).length +
          (List.range body.length).countP removed.contains = body.length + 1 := by
  refine ⟨replaceWith_eq_nodesAt body removed anchor d, ?_, length_replaceWith body removed anchor d⟩
  rw [nodesAt_before fun i => !removed.contains i, nodesAt_behind fun i => !removed.contains i]
  exact (nodesAt_cut _ anchor body).symm

-- The anchor may be removed, or lie past the end.
example (a b c : Node) (d : Declaration) :
    replaceWith [a, b, c] [2, 0] 2 d = [b, .declaration d] ∧
      replaceWith [a, b, c] [9, 1, 0, 1] 7 d = [c, .declaration d] := ⟨rfl, rfl⟩

end Body

/-! ## Slots -/

namespace Slots

theorem mem_indices {slots : Slots} {i : Nat} : i ∈ slots.indices ↔ some i ∈ slots.positions := by
  simp [indices]

/-- Insertion puts the positions in the same order as merging does.  It is structurally recursive, so on a
given body it can be evaluated. -/
theorem indices_eq_insertionSort (slots : Slots) :
    slots.indices = (slots.positions.filterMap id).insertionSort (· ≤ ·) :=
  List.mergeSort_eq_insertionSort (· ≤ ·) _

/-- The positions of longhands, each listed once, of which none is declared twice. -/
theorem locate_eq_some {body : List Node} {longhands : List String} {slots : Slots}
    (hnodup : longhands.Nodup) (h : locate body longhands = some slots) :
    (∀ name ∈ longhands, Body.count name body ≤ 1) ∧
      slots.positions = longhands.map fun name => Body.find? name body := by
  rw [locate] at h
  split at h
  · next hcount =>
      obtain rfl := Option.some.inj h
      refine ⟨by simpa using hcount, ?_⟩
      refine List.ext_getElem (by simp) fun k hk _ => ?_
      have hk' : k < longhands.length := by simpa using hk
      simp [hnodup.idxOf_getElem k hk']
  · cases h

section Located

variable {body : List Node} {longhands : List String} {slots : Slots}
variable (hcount : ∀ name ∈ longhands, Body.count name body ≤ 1)
variable (hpositions : slots.positions = longhands.map fun name => Body.find? name body)

include hcount hpositions

/-- The positions are those of the declarations of longhands. -/
theorem mem_indices_iff {i : Nat} :
    i ∈ slots.indices ↔ ∃ d, body[i]? = some (.declaration d) ∧ d.property ∈ longhands := by
  rw [mem_indices, hpositions, List.mem_map]
  constructor
  · rintro ⟨name, hname, hfind⟩
    obtain ⟨d, hi, hd⟩ := (Body.find?_eq_some_iff (hcount name hname)).1 hfind
    exact ⟨d, hi, by rwa [hd]⟩
  · rintro ⟨d, hi, hd⟩
    exact ⟨d.property, hd, (Body.find?_eq_some_iff (hcount _ hd)).2 ⟨d, hi, rfl⟩⟩

/-- The values are those of the longhands in their order. -/
theorem values_eq : slots.values body = longhands.map fun name => Body.value? name body := by
  have hlength : slots.positions.length = longhands.length := by rw [hpositions, List.length_map]
  refine List.ext_getElem (by simp [values, hlength]) fun k hk _ => ?_
  have hk' : k < longhands.length := by simpa [values, hlength] using hk
  have hslot : slots.slot? k = Body.find? longhands[k] body := by
    rw [slot?, hpositions]
    simp [hk']
  have hfound := Body.find?_bind_declarationAt? (hcount _ (List.getElem_mem hk'))
  simp only [values, List.getElem_map, List.getElem_range]
  rw [value?, hslot, Body.value?, ← hfound]
  cases Body.find? longhands[k] body with
  | none => rfl
  | some i =>
      show ((Body.declarationAt? body i).bind fun d => some d.value) =
        (Body.declarationAt? body i).map Declaration.value
      rw [Option.map_eq_bind]
      rfl

end Located

/-- No position is behind the last one. -/
theorem le_of_getLast? {slots : Slots} {i last : Nat} (hlast : slots.indices.getLast? = some last)
    (hi : i ∈ slots.indices) : i ≤ last := by
  have hsorted : slots.indices.Pairwise (· ≤ ·) := by
    rw [indices_eq_insertionSort]
    exact List.pairwise_insertionSort _ _
  obtain ⟨before, hbefore⟩ := List.getLast?_eq_some_iff.1 hlast
  rw [hbefore] at hsorted hi
  rcases List.mem_append.1 hi with hmem | hmem
  · exact (List.pairwise_append.1 hsorted).2.2 i hmem last (List.mem_singleton_self last)
  · exact Nat.le_of_eq (List.mem_singleton.1 hmem)

/-- There is a shared importance if there are longhands, and all have it. -/
theorem sharedImportance?_eq_some_iff {slots : Slots} {body : List Node} {important : Bool} :
    slots.sharedImportance? body = some important ↔
      (∃ i ∈ slots.indices, ∃ d, Body.declarationAt? body i = some d) ∧
        ∀ i ∈ slots.indices, ∀ d, Body.declarationAt? body i = some d → d.important = important := by
  have hsome : (∃ i ∈ slots.indices, ∃ d, Body.declarationAt? body i = some d) ↔
      (slots.indices.filterMap (Body.declarationAt? body)).map Declaration.important ≠ [] := by
    simp [List.filterMap_eq_nil_iff, Option.ne_none_iff_exists']
  have hall : (∀ i ∈ slots.indices, ∀ d, Body.declarationAt? body i = some d → d.important = important) ↔
      ∀ flag ∈ (slots.indices.filterMap (Body.declarationAt? body)).map Declaration.important,
        flag = important := by
    rw [List.forall_mem_map]
    simp only [List.mem_filterMap]
    exact ⟨fun h d ⟨i, hi, hd⟩ => h i hi d hd, fun h i hi d hd => h d ⟨i, hi, hd⟩⟩
  rw [hsome, hall, sharedImportance?]
  cases (slots.indices.filterMap (Body.declarationAt? body)).map Declaration.important with
  | nil => simp
  | cons first others =>
      simp only [Option.ite_none_right_eq_some, Option.some.injEq, List.all_eq_true, beq_iff_eq,
        List.forall_mem_cons, ne_eq, List.cons_ne_nil, not_false_eq_true, true_and]
      constructor
      · rintro ⟨hothers, rfl⟩
        exact ⟨rfl, hothers⟩
      · rintro ⟨rfl, hothers⟩
        exact ⟨hothers, rfl⟩

/-- What stands before the last longhand and is none itself does not interfere. -/
theorem not_interferes_of_lt {slots : Slots} {body : List Node} {interferes : String → Bool}
    (h : slots.hasInterference body interferes = false) {i last : Nat}
    (hlast : slots.indices.getLast? = some last) (hlt : i < last) (hi : i ∉ slots.indices)
    {d : Declaration} (hd : body[i]? = some (.declaration d)) : interferes d.property = false := by
  rw [hasInterference, hlast] at h
  dsimp only at h
  rw [List.any_eq_false] at h
  have hmem : (Node.declaration d, i) ∈ (body.take last).zipIdx := by
    rw [List.mem_zipIdx_iff_getElem?, List.getElem?_take_of_lt hlt]
    exact hd
  simpa [Node.declaration?, hi] using h _ hmem

end Slots

/-! ## Families -/

namespace Family

variable (family : Family)

/-- Is the node a declaration of one of the longhands? -/
def contributes (node : Node) : Bool :=
  node.declaration?.any fun d => family.longhands.contains d.property

/-- The declarations of the longhands in their order. -/
def contributors (body : List Node) : List Declaration :=
  (Body.declarations body).filter fun d => family.longhands.contains d.property

/-- The nodes that are no declarations of longhands. -/
def rest (body : List Node) : List Node := body.filter fun node => !family.contributes node

/-- Does the shorthand belong in the place of a longhand with these nodes behind it?  It does when
there are no contributors among them, or when it is the longhand that the family names. -/
def TakesPlace (anchor : Declaration) (back : List Node) : Prop :=
  match family.anchor with
  | some i => family.longhands[i]? = some anchor.property
  | none => family.contributors back = []

/-- The longhands of a body can be fused, with `s` in the place of the longhand between `front` and
`back`. -/
structure Fuses (body front : List Node) (anchor : Declaration) (back : List Node)
    (s : Declaration) : Prop where
  /-- The body is cut at a declaration. -/
  split : body = front ++ .declaration anchor :: back
  /-- This declaration is one of a longhand. -/
  anchor_mem : anchor.property ∈ family.longhands
  /-- It is the one whose place the shorthand takes. -/
  takesPlace : family.TakesPlace anchor back
  /-- No longhand is declared twice. -/
  once : ∀ name ∈ family.longhands, Body.count name body ≤ 1
  /-- The property is the shorthand. -/
  property_eq : s.property = family.shorthand
  /-- The value is made of the values of the longhands. -/
  value_eq : family.compose (family.longhands.map fun name => Body.value? name body) = some s.value
  /-- The shorthand is as important as all longhands. -/
  important_eq : ∀ d ∈ family.contributors body, d.important = s.important
  /-- Nothing is in the way wherever it stands. -/
  not_excludes : ∀ d ∈ Body.declarations body, family.excludes d.property = false
  /-- Nothing that interferes stands before a longhand. -/
  clear : ∀ {a : List Node} {d : Declaration} {b : List Node}, body = a ++ .declaration d :: b →
    d.property ∉ family.longhands → family.interferes d.property = true →
    family.contributors b = []

variable {family}

theorem mem_contributors {body : List Node} {d : Declaration} :
    d ∈ family.contributors body ↔ .declaration d ∈ body ∧ d.property ∈ family.longhands := by
  rw [contributors, List.mem_filter, Body.mem_declarations, List.contains_iff_mem]

/-- The place of the shorthand is one of the positions that were found. -/
theorem mem_indices_of_anchorIn? {slots : Slots} {position : Nat}
    (h : family.anchorIn? slots = some position) : position ∈ slots.indices := by
  rw [anchorIn?] at h
  cases hanchor : family.anchor with
  | none =>
      rw [hanchor] at h
      exact List.mem_of_getLast? h
  | some k =>
      rw [hanchor] at h
      dsimp only at h
      rw [Slots.slot?] at h
      rw [Slots.mem_indices]
      exact List.mem_of_getElem? (Option.join_eq_some_iff.1 h)

theorem rest_declaration (d : Declaration) (body : List Node) :
    family.rest (.declaration d :: body) =
      if family.longhands.contains d.property then family.rest body
      else .declaration d :: family.rest body := by
  have hcontributes : family.contributes (.declaration d) = family.longhands.contains d.property :=
    rfl
  rw [rest, List.filter_cons, hcontributes]
  cases family.longhands.contains d.property with
  | true => rfl
  | false => rfl

section Located

variable {body : List Node} {slots : Slots}
variable (hcount : ∀ name ∈ family.longhands, Body.count name body ≤ 1)
variable (hpositions : slots.positions = family.longhands.map fun name => Body.find? name body)

include hcount hpositions

/-- The nodes at the positions that were found are those that contribute. -/
theorem contains_indices {i : Nat} {node : Node} (hi : body[i]? = some node) :
    slots.indices.contains i = family.contributes node := by
  rw [Bool.eq_iff_iff, List.contains_iff_mem, Slots.mem_indices_iff hcount hpositions, contributes,
    Option.any_eq_true]
  constructor
  · rintro ⟨d, hd, hmem⟩
    obtain rfl : node = .declaration d := Option.some.inj (hi.symm.trans hd)
    exact ⟨d, rfl, List.contains_iff_mem.2 hmem⟩
  · rintro ⟨d, hd, hmem⟩
    rw [Node.declaration?_eq_some_iff] at hd
    exact ⟨d, by rw [hi, hd], List.contains_iff_mem.1 hmem⟩

/-- Contributors behind a node stand at positions behind its own. -/
theorem exists_index {a b : List Node} {node : Node} (hbody : body = a ++ node :: b)
    (hb : family.contributors b ≠ []) : ∃ i ∈ slots.indices, a.length < i := by
  obtain ⟨d, hd⟩ := List.exists_mem_of_ne_nil _ hb
  obtain ⟨hmem, hproperty⟩ := mem_contributors.1 hd
  obtain ⟨k, hk⟩ := List.mem_iff_getElem?.1 hmem
  refine ⟨a.length + 1 + k, ?_, by omega⟩
  refine (Slots.mem_indices_iff hcount hpositions).2 ⟨d, ?_, hproperty⟩
  have hindex : a.length + 1 + k - a.length = k + 1 := by omega
  rw [hbody, List.getElem?_append_right (by omega), hindex, List.getElem?_cons_succ]
  exact hk

/-- The place of the shorthand is that of a longhand. -/
theorem takesPlace_of_anchorIn? {position : Nat} (h : family.anchorIn? slots = some position)
    {front back : List Node} {anchor : Declaration}
    (hbody : body = front ++ .declaration anchor :: back) (hfront : front.length = position) :
    family.TakesPlace anchor back := by
  rw [anchorIn?] at h
  rw [TakesPlace]
  cases hanchor : family.anchor with
  | none =>
      rw [hanchor] at h
      dsimp only at h ⊢
      by_contra hne
      obtain ⟨i, hi, hlt⟩ := exists_index hcount hpositions hbody hne
      have hle := Slots.le_of_getLast? h hi
      omega
  | some k =>
      rw [hanchor] at h
      dsimp only at h ⊢
      rw [Slots.slot?, hpositions, List.getElem?_map] at h
      cases hname : family.longhands[k]? with
      | none =>
          rw [hname] at h
          cases h
      | some name =>
          rw [hname] at h
          obtain ⟨d, hd, hproperty⟩ :=
            (Body.find?_eq_some_iff (hcount name (List.mem_of_getElem? hname))).1 h
          have hsame : some (Node.declaration anchor) = some (.declaration d) := by
            rw [← hd, hbody, ← hfront]
            simp
          obtain rfl : anchor = d := by simpa using hsame
          rw [hproperty]

/-- What interferes has no longhand behind it. -/
theorem clear_of_hasInterference (h : slots.hasInterference body family.interferes = false)
    {a : List Node} {d : Declaration} {b : List Node} (hbody : body = a ++ .declaration d :: b)
    (hd : d.property ∉ family.longhands) (hinterferes : family.interferes d.property = true) :
    family.contributors b = [] := by
  by_contra hne
  obtain ⟨i, hi, hlt⟩ := exists_index hcount hpositions hbody hne
  obtain ⟨last, hlast⟩ :=
    Option.isSome_iff_exists.1 (List.getLast?_isSome.2 (List.ne_nil_of_mem hi))
  have hhere : body[a.length]? = some (.declaration d) := by
    rw [hbody]
    simp
  have hnot : a.length ∉ slots.indices := by
    rw [Slots.mem_indices_iff hcount hpositions]
    rintro ⟨e, he, hmem⟩
    obtain rfl : d = e := by simpa [hhere] using he
    exact hd hmem
  have hle := Slots.le_of_getLast? hlast hi
  have hfalse := Slots.not_interferes_of_lt h hlast (by omega) hnot hhere
  rw [hinterferes] at hfalse
  cases hfalse

/-- The body around the shorthand is what does not contribute. -/
theorem replaceWith_indices {front back : List Node} {anchor : Declaration}
    (hbody : body = front ++ .declaration anchor :: back)
    (hanchor : anchor.property ∈ family.longhands) (s : Declaration) :
    Body.replaceWith body slots.indices front.length s =
      family.rest front ++ .declaration s :: family.rest back := by
  have hfront : Body.kept slots.indices 0 (body.take front.length) = family.rest front := by
    rw [hbody, List.take_left]
    refine Body.kept_eq_filter fun i node hi => ?_
    rw [Nat.zero_add]
    refine contains_indices hcount hpositions ?_
    rw [hbody, List.getElem?_append_left (List.getElem?_eq_some_iff.1 hi).1]
    exact hi
  have hback : Body.kept slots.indices front.length (body.drop front.length) = family.rest back := by
    have hrest : family.rest (.declaration anchor :: back) = family.rest back := by
      rw [rest_declaration, if_pos (List.contains_iff_mem.2 hanchor)]
    rw [hbody, List.drop_left, ← hrest]
    refine Body.kept_eq_filter fun i node hi => ?_
    refine contains_indices hcount hpositions ?_
    rw [hbody, List.getElem?_append_right (by omega), Nat.add_sub_cancel_left]
    exact hi
  rw [Body.replaceWith_eq, hfront, hback]

end Located

/-- What fusing a family does to a body: the shorthand takes the place of a longhand, the other
longhands go, and all else stays. -/
theorem fuse?_eq_some (hnodup : family.longhands.Nodup) {body fused : List Node}
    (h : family.fuse? body = some fused) :
    ∃ front anchor back s, family.Fuses body front anchor back s ∧
      fused = family.rest front ++ .declaration s :: family.rest back := by
  rw [fuse?] at h
  obtain ⟨slots, hslots, h⟩ := Option.bind_eq_some_iff.1 h
  obtain ⟨value, hvalue, h⟩ := Option.bind_eq_some_iff.1 h
  obtain ⟨important, himportant, h⟩ := Option.bind_eq_some_iff.1 h
  obtain ⟨position, hposition, h⟩ := Option.bind_eq_some_iff.1 h
  split at h
  · cases h
  next hexcludes =>
  split at h
  · cases h
  next hinterference =>
  obtain ⟨hcount, hpositions⟩ := Slots.locate_eq_some hnodup hslots
  obtain ⟨anchor, hanchor, hmem⟩ := (Slots.mem_indices_iff hcount hpositions).1
    (mem_indices_of_anchorIn? hposition)
  obtain ⟨hlt, hget⟩ := List.getElem?_eq_some_iff.1 hanchor
  have hsplit : body = body.take position ++ .declaration anchor :: body.drop (position + 1) := by
    rw [← hget, ← List.drop_eq_getElem_cons hlt, List.take_append_drop]
  have hlength : (body.take position).length = position := by
    rw [List.length_take]
    omega
  refine ⟨body.take position, anchor, body.drop (position + 1),
    ⟨family.shorthand, value, important⟩, ?_, ?_⟩
  · refine ⟨hsplit, hmem, takesPlace_of_anchorIn? hcount hpositions hposition hsplit hlength, hcount,
      rfl, ?_, ?_, ?_, ?_⟩
    · rw [← Slots.values_eq hcount hpositions]
      exact hvalue
    · intro d hd
      obtain ⟨hd, hproperty⟩ := mem_contributors.1 hd
      obtain ⟨i, hi⟩ := List.mem_iff_getElem?.1 hd
      exact (Slots.sharedImportance?_eq_some_iff.1 himportant).2 i
        ((Slots.mem_indices_iff hcount hpositions).2 ⟨d, hi, hproperty⟩) d
        (Body.declarationAt?_eq_some_iff.2 hi)
    · intro d hd
      have hnone := List.any_eq_false.1 (Bool.eq_false_iff.2 hexcludes) _ (Body.mem_declarations.1 hd)
      simpa [Node.declaration?] using hnone
    · intro a d b hbody hd hinterferes
      exact clear_of_hasInterference hcount hpositions (Bool.eq_false_iff.2 hinterference) hbody hd
        hinterferes
  · have hreplace := replaceWith_indices hcount hpositions hsplit hmem
      ⟨family.shorthand, value, important⟩
    rw [hlength] at hreplace
    rw [← hreplace]
    exact (Option.some.inj h).symm

/-! ## Consequences of being fused -/

/-- A longhand with a value has one declaration, which is as important as the shorthand. -/
theorem Fuses.declared_eq {body front back : List Node} {anchor s : Declaration}
    (h : family.Fuses body front anchor back s) {name value : String} (hname : name ∈ family.longhands)
    (hvalue : Body.value? name body = some value) :
    Body.declared name body = [⟨name, value, s.important⟩] := by
  obtain ⟨d, hdeclared, hproperty, rfl⟩ := Body.declared_of_value? (h.once name hname) hvalue
  have hmem : .declaration d ∈ body := (Body.mem_declared.1 (by rw [hdeclared]; simp)).1
  have himportant := h.important_eq d (mem_contributors.2 ⟨hmem, by rwa [hproperty]⟩)
  rw [hdeclared, ← hproperty, ← himportant]

theorem Fuses.mem_contributors_of_value? {body front back : List Node} {anchor s : Declaration}
    (h : family.Fuses body front anchor back s) {name value : String} (hname : name ∈ family.longhands)
    (hvalue : Body.value? name body = some value) :
    ⟨name, value, s.important⟩ ∈ family.contributors body := by
  have hmem : (⟨name, value, s.important⟩ : Declaration) ∈ Body.declared name body := by
    rw [h.declared_eq hname hvalue]
    exact List.mem_singleton_self _
  exact mem_contributors.2 ⟨(Body.mem_declared.1 hmem).1, hname⟩

theorem declarations_rest (body : List Node) :
    Body.declarations (family.rest body) =
      (Body.declarations body).filter fun d => !family.longhands.contains d.property := by
  induction body with
  | nil => rfl
  | cons node body ih =>
      cases node with
      | declaration d =>
          rw [rest_declaration, Body.declarations_declaration, List.filter_cons, ← ih]
          cases family.longhands.contains d.property with
          | true => rfl
          | false => rfl
      | layer | media | rule | comment | statement | atRule => exact ih

/-- Without contributors all declarations are in the rest. -/
theorem declarations_rest_of_contributors {body : List Node} (h : family.contributors body = []) :
    Body.declarations (family.rest body) = Body.declarations body := by
  rw [declarations_rest, List.filter_eq_self]
  intro d hd
  have hnot := List.filter_eq_nil_iff.1 h d hd
  simpa using hnot

/-- The contributors are the declarations of the longhands, one longhand after the other, in some
order. -/
theorem contributors_perm (hnodup : family.longhands.Nodup) (body : List Node) :
    (family.contributors body).Perm
      (family.longhands.flatMap fun name => Body.declared name body) := by
  rw [contributors]
  generalize family.longhands = names at hnodup
  induction names with
  | nil => simp
  | cons name names ih =>
      obtain ⟨hname, hnames⟩ := List.nodup_cons.1 hnodup
      have hsplit := List.filter_append_perm (fun d : Declaration => d.property == name)
        ((Body.declarations body).filter fun d => (name :: names).contains d.property)
      have hthis : ((Body.declarations body).filter fun d => (name :: names).contains d.property).filter
          (fun d => d.property == name) = Body.declared name body := by
        rw [List.filter_filter, Body.declared]
        refine List.filter_congr fun d _ => ?_
        cases hd : d.property == name with
        | true =>
            rw [List.contains_cons, hd]
            rfl
        | false => rfl
      have hothers : ((Body.declarations body).filter fun d => (name :: names).contains d.property).filter
          (fun d => !(d.property == name)) =
            (Body.declarations body).filter fun d => names.contains d.property := by
        rw [List.filter_filter]
        refine List.filter_congr fun d _ => ?_
        cases hd : d.property == name with
        | true =>
            rw [beq_iff_eq] at hd
            simp [hd, hname]
        | false =>
            rw [List.contains_cons, hd]
            rfl
      rw [hthis, hothers] at hsplit
      rw [List.flatMap_cons]
      exact hsplit.symm.trans ((ih hnames).append_left _)

/-- What stands before the shorthand and is no longhand does not interfere. -/
theorem Fuses.front_clear {body front back : List Node} {anchor s : Declaration}
    (h : family.Fuses body front anchor back s) {d : Declaration} (hd : .declaration d ∈ front)
    (hproperty : d.property ∉ family.longhands) : family.interferes d.property = false := by
  cases hinterferes : family.interferes d.property with
  | false => rfl
  | true =>
      obtain ⟨a, b, hab⟩ := List.append_of_mem hd
      have hbody : body = a ++ .declaration d :: (b ++ .declaration anchor :: back) := by
        rw [h.split, hab]
        simp
      have hnone := h.clear hbody hproperty hinterferes
      have hanchor : anchor ∈ family.contributors (b ++ .declaration anchor :: back) :=
        mem_contributors.2 ⟨by simp, h.anchor_mem⟩
      rw [hnone] at hanchor
      cases hanchor

end Family

end Stylesheet
