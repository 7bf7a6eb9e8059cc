import Mathlib.Data.Finset.Basic
import Mathlib.Data.Finset.Image
import Mathlib.Data.List.Pairwise
import Stylesheet.Proofs.Fusion
import Stylesheet.Proofs.ValueText
import Stylesheet.Shorthand.Border

/-!
# Sides keep the cascade

What a rule says about longhands is the outcome of a *cascade*: its declarations assign values to
longhands one after the other, and a later assignment replaces an earlier one unless the earlier one
is important and the later is not.  Fusing the sides of a border does not change the outcome.

Which longhands a declaration assigns is left open.  All that counts is that the shorthand of a side
with three tokens assigns what width, style and color with one token each assign, and that these three
assign different longhands (`SideAssignment`).

The argument for one side has two halves.  Up to the last contributor no other declaration assigns
anything, since it would have been in the way; so the outcome there is that of the three contributors
alone.  And these can be put in the order of the shorthand, since assignments to different longhands
commute (`put_comm`), and be made at once, since they are equally important (`put_put`).
-/

namespace Stylesheet.Cascade

variable {L V : Type} [DecidableEq L] [DecidableEq V]

/-! ## Assignments -/

/-- The longhands to which some assignments give a value. -/
def touched (set : Finset (L × V)) : Finset L := set.image Prod.fst

/-- The values that some assignments give to a longhand. -/
def given (set : Finset (L × V)) (longhand : L) : Finset V :=
  (set.filter fun x => x.1 = longhand).image Prod.snd

/-- The outcome of a cascade: what each longhand was given last, and whether it is important. -/
abbrev Outcome (L V : Type) := L → Option (Finset V × Bool)

/-- The outcome after some assignments that are made at once. -/
def put (outcome : Outcome L V) (set : Finset (L × V)) (important : Bool) : Outcome L V :=
  fun longhand =>
    if given set longhand = ∅ then outcome longhand
    else if !important && (outcome longhand).any Prod.snd then outcome longhand
    else some (given set longhand, important)

theorem given_eq_empty {set : Finset (L × V)} {longhand : L} (h : longhand ∉ touched set) :
    given set longhand = ∅ := by
  rw [given, Finset.image_eq_empty, Finset.filter_eq_empty_iff]
  rintro x hx rfl
  exact h (Finset.mem_image_of_mem Prod.fst hx)

theorem given_union (a b : Finset (L × V)) (longhand : L) :
    given (a ∪ b) longhand = given a longhand ∪ given b longhand := by
  rw [given, Finset.filter_union, Finset.image_union]
  rfl

theorem touched_union (a b : Finset (L × V)) : touched (a ∪ b) = touched a ∪ touched b :=
  Finset.image_union a b

theorem put_of_notMem {set : Finset (L × V)} {longhand : L} (h : longhand ∉ touched set)
    (outcome : Outcome L V) (important : Bool) :
    put outcome set important longhand = outcome longhand := by
  rw [put, if_pos (given_eq_empty h)]

/-- What a longhand is given depends on what it was given before and on nothing else. -/
theorem put_congr {outcome outcome' : Outcome L V} {longhand : L}
    (h : outcome longhand = outcome' longhand) (set : Finset (L × V)) (important : Bool) :
    put outcome set important longhand = put outcome' set important longhand := by
  rw [put, put, h]

theorem put_empty (outcome : Outcome L V) (important : Bool) : put outcome ∅ important = outcome := by
  funext longhand
  exact put_of_notMem (by simp [touched]) outcome important

section Disjoint

variable {a b : Finset (L × V)} (h : Disjoint (touched a) (touched b))

include h

/-- Assignments to different longhands may change places. -/
theorem put_comm (outcome : Outcome L V) (i j : Bool) :
    put (put outcome a i) b j = put (put outcome b j) a i := by
  funext longhand
  by_cases ha : longhand ∈ touched a
  · have hb : longhand ∉ touched b := Finset.disjoint_left.1 h ha
    rw [put_of_notMem hb (put outcome a i)]
    exact (put_congr (put_of_notMem hb outcome j) a i).symm
  · rw [put_of_notMem ha (put outcome b j)]
    exact put_congr (put_of_notMem ha outcome i) b j

/-- Equally important assignments to different longhands may be made at once. -/
theorem put_put (outcome : Outcome L V) (i : Bool) :
    put (put outcome a i) b i = put outcome (a ∪ b) i := by
  funext longhand
  by_cases ha : longhand ∈ touched a
  · have hb : longhand ∉ touched b := Finset.disjoint_left.1 h ha
    have hgiven : given (a ∪ b) longhand = given a longhand := by
      rw [given_union, given_eq_empty hb, Finset.union_empty]
    rw [put_of_notMem hb, put, put, hgiven]
  · have hgiven : given (a ∪ b) longhand = given b longhand := by
      rw [given_union, given_eq_empty ha, Finset.empty_union]
    rw [put_congr (put_of_notMem ha outcome i) b i, put, put, hgiven]

end Disjoint

/-! ## Declarations -/

/-- Which longhands a property with a value assigns, and to what. -/
abbrev Assignment (L V : Type) := String → String → Finset (L × V)

/-- The outcome after a declaration. -/
def step (assign : Assignment L V) (outcome : Outcome L V) (d : Declaration) : Outcome L V :=
  put outcome (assign d.property d.value) d.important

/-- The outcome of a body: its declarations one after the other, starting from nothing. -/
def run (assign : Assignment L V) (body : List Node) : Outcome L V :=
  (Body.declarations body).foldl (step assign) fun _ => none

/-- Two declarations assign different longhands. -/
def Apart (assign : Assignment L V) (d e : Declaration) : Prop :=
  Disjoint (touched (assign d.property d.value)) (touched (assign e.property e.value))

instance (assign : Assignment L V) : Std.Symm (Apart assign) := ⟨fun _ _ h => Disjoint.symm h⟩

/-- Declarations that assign different longhands may stand in any order. -/
theorem foldl_step_perm {assign : Assignment L V} {ds es : List Declaration} (hperm : ds.Perm es)
    (hapart : es.Pairwise (Apart assign)) (outcome : Outcome L V) :
    ds.foldl (step assign) outcome = es.foldl (step assign) outcome := by
  refine (hperm.symm.foldl_eq' ?_ outcome).symm
  intro d hd e he z
  by_cases hde : d = e
  · rw [hde]
  · have hdisjoint : Apart assign d e := hapart.forall hd he hde
    exact put_comm hdisjoint z d.important e.important

/-- Declarations that assign nothing may be left out. -/
theorem foldl_step_filter {assign : Assignment L V} {p : Declaration → Bool}
    {ds : List Declaration} (h : ∀ d ∈ ds, p d = false → assign d.property d.value = ∅)
    (outcome : Outcome L V) :
    (ds.filter p).foldl (step assign) outcome = ds.foldl (step assign) outcome := by
  induction ds generalizing outcome with
  | nil => rfl
  | cons d ds ih =>
      have hrest := ih fun e he => h e (List.mem_cons_of_mem d he)
      cases hd : p d with
      | true => rw [List.filter_cons_of_pos hd, List.foldl_cons, List.foldl_cons, hrest]
      | false =>
          have hstep : step assign outcome d = outcome := by
            rw [step, h d List.mem_cons_self hd, put_empty]
          rw [List.filter_cons_of_neg (by simp [hd]), List.foldl_cons, hstep, hrest]

end Stylesheet.Cascade

namespace Stylesheet.Border

open Stylesheet.Cascade (Assignment Outcome Apart touched touched_union put_put step run
  foldl_step_perm foldl_step_filter)
open Stylesheet.Value (IsToken Tidy)

variable {L V : Type} [DecidableEq L] [DecidableEq V]

/-- Only properties of sides assign longhands.  The shorthand of a side with three tokens assigns
what width, style and color with one token each assign, and these are different longhands. -/
structure SideAssignment (assign : Assignment L V) : Prop where
  /-- Other properties assign nothing. -/
  outside : ∀ property value, isSideProperty property = false → assign property value = ∅
  /-- The shorthand assigns what its parts assign. -/
  shorthand : ∀ direction ∈ directions, ∀ width style color,
    IsToken width → IsToken style → IsToken color →
    assign (sideName direction) (Text.join " " [width, style, color]) =
      assign (sideName direction ++ "-width") width ∪ assign (sideName direction ++ "-style") style ∪
        assign (sideName direction ++ "-color") color
  /-- The parts assign different longhands. -/
  apart : ∀ direction ∈ directions, ∀ width style color,
    IsToken width → IsToken style → IsToken color →
    Disjoint (touched (assign (sideName direction ++ "-width") width))
        (touched (assign (sideName direction ++ "-style") style)) ∧
      Disjoint (touched (assign (sideName direction ++ "-width") width))
        (touched (assign (sideName direction ++ "-color") color)) ∧
      Disjoint (touched (assign (sideName direction ++ "-style") style))
        (touched (assign (sideName direction ++ "-color") color))

/-! ## One side -/

theorem nodup_side (direction : String) : (side direction).longhands.Nodup := by
  simp [side]

theorem composeSide_eq_some {values : List (Option String)} {value : String}
    (h : composeSide values = some value) :
    ∃ width style color, values = [some width, some style, some color] ∧
      Value.isSingle width = true ∧ Value.isSingle style = true ∧ Value.isSingle color = true ∧
      value = Text.join " " [width, style, color] := by
  unfold composeSide at h
  split at h
  · next width style color =>
      split at h
      · next hall =>
          simp only [List.all_cons, List.all_nil, Bool.and_true, Bool.and_eq_true] at hall
          exact ⟨width, style, color, rfl, hall.1, hall.2.1, hall.2.2, (Option.some.inj h).symm⟩
      · cases h
  · cases h

/-- The three contributors of a side that is fused. -/
theorem exists_contributors {direction : String} {body front back : List Node}
    {anchor s : Declaration} (h : (side direction).Fuses body front anchor back s)
    (hbody : ∀ d, .declaration d ∈ body → Tidy d.value) :
    ∃ width style color, IsToken width ∧ IsToken style ∧ IsToken color ∧
      s.value = Text.join " " [width, style, color] ∧
      ((side direction).contributors body).Perm
        [⟨sideName direction ++ "-width", width, s.important⟩,
          ⟨sideName direction ++ "-style", style, s.important⟩,
          ⟨sideName direction ++ "-color", color, s.important⟩] := by
  have htoken : ∀ name ∈ (side direction).longhands, ∀ value,
      Body.value? name body = some value → Value.isSingle value = true →
      IsToken value ∧ Body.declared name body = [⟨name, value, s.important⟩] := by
    intro name hname value hvalue hsingle
    have hmem := (Family.mem_contributors.1 (h.mem_contributors_of_value? hname hvalue)).1
    exact ⟨(hbody _ hmem).isToken hsingle, h.declared_eq hname hvalue⟩
  obtain ⟨width, style, color, hvalues, hwidth, hstyle, hcolor, hvalue⟩ :=
    composeSide_eq_some h.value_eq
  simp only [side, List.map_cons, List.map_nil, List.cons.injEq, and_true] at hvalues
  obtain ⟨hvwidth, hvstyle, hvcolor⟩ := hvalues
  obtain ⟨htwidth, hdwidth⟩ := htoken _ (by simp [side]) width hvwidth hwidth
  obtain ⟨htstyle, hdstyle⟩ := htoken _ (by simp [side]) style hvstyle hstyle
  obtain ⟨htcolor, hdcolor⟩ := htoken _ (by simp [side]) color hvcolor hcolor
  refine ⟨width, style, color, htwidth, htstyle, htcolor, hvalue, ?_⟩
  have hperm := Family.contributors_perm (nodup_side direction) body
  simpa [side, hdwidth, hdstyle, hdcolor] using hperm

/-- The three contributors of a side assign what its shorthand assigns. -/
theorem foldl_contributors {assign : Assignment L V} (hassign : SideAssignment assign)
    {direction : String} (hdirection : direction ∈ directions) {width style color : String}
    (hwidth : IsToken width) (hstyle : IsToken style) (hcolor : IsToken color) {important : Bool}
    {ds : List Declaration}
    (hperm : ds.Perm [⟨sideName direction ++ "-width", width, important⟩,
      ⟨sideName direction ++ "-style", style, important⟩,
      ⟨sideName direction ++ "-color", color, important⟩])
    (outcome : Outcome L V) :
    ds.foldl (step assign) outcome =
      step assign outcome
        ⟨sideName direction, Text.join " " [width, style, color], important⟩ := by
  obtain ⟨hws, hwc, hsc⟩ := hassign.apart direction hdirection width style color hwidth hstyle hcolor
  have hpairwise : [(⟨sideName direction ++ "-width", width, important⟩ : Declaration),
      ⟨sideName direction ++ "-style", style, important⟩,
      ⟨sideName direction ++ "-color", color, important⟩].Pairwise (Apart assign) := by
    simpa [Apart] using ⟨⟨hws, hwc⟩, hsc⟩
  have hboth : Disjoint
      (touched (assign (sideName direction ++ "-width") width ∪
        assign (sideName direction ++ "-style") style))
      (touched (assign (sideName direction ++ "-color") color)) := by
    rw [touched_union, Finset.disjoint_union_left]
    exact ⟨hwc, hsc⟩
  rw [foldl_step_perm hperm hpairwise, List.foldl_cons, List.foldl_cons, List.foldl_cons,
    List.foldl_nil, step, step, step, step, put_put hws, put_put hboth,
    hassign.shorthand direction hdirection width style color hwidth hstyle hcolor]

section Fused

variable {direction : String} {body front back : List Node} {anchor s : Declaration}
variable (h : (side direction).Fuses body front anchor back s)

include h

/-- The contributors are what can be found up to the last of them. -/
theorem contributors_eq :
    (side direction).contributors body =
      (Body.declarations front ++ [anchor]).filter
        fun d => (side direction).longhands.contains d.property := by
  have hlast : (Body.declarations back).filter
      (fun d => (side direction).longhands.contains d.property) = [] := h.takesPlace
  rw [Family.contributors, h.split, Body.declarations_append, Body.declarations_declaration,
    List.append_cons, List.filter_append, hlast, List.append_nil]

/-- Before the last contributor nothing else assigns anything. -/
theorem assign_of_front {assign : Assignment L V} (hassign : SideAssignment assign)
    {d : Declaration} (hd : d ∈ Body.declarations front)
    (hproperty : (side direction).longhands.contains d.property = false) :
    assign d.property d.value = ∅ := by
  have hclear := h.front_clear (Body.mem_declarations.1 hd) (by simpa using hproperty)
  exact hassign.outside _ _ (Bool.or_eq_false_iff.1 hclear).1

/-- The outcome at the last contributor is that of the shorthand. -/
theorem foldl_front {assign : Assignment L V} (hassign : SideAssignment assign)
    (hdirection : direction ∈ directions) (hbody : ∀ d, .declaration d ∈ body → Tidy d.value)
    (outcome : Outcome L V) :
    (Body.declarations front ++ [anchor]).foldl (step assign) outcome = step assign outcome s := by
  obtain ⟨width, style, color, hwidth, hstyle, hcolor, hvalue, hperm⟩ :=
    exists_contributors h hbody
  have hs : s = ⟨sideName direction, Text.join " " [width, style, color], s.important⟩ := by
    rw [← hvalue, ← (show s.property = sideName direction from h.property_eq)]
  rw [contributors_eq h] at hperm
  have honly := foldl_contributors hassign hdirection hwidth hstyle hcolor hperm outcome
  rw [← hs] at honly
  rw [← honly]
  refine (foldl_step_filter ?_ outcome).symm
  intro d hd hproperty
  rcases List.mem_append.1 hd with hd | hd
  · exact assign_of_front h hassign hd hproperty
  · rw [List.mem_singleton.1 hd, List.contains_iff_mem.2 h.anchor_mem] at hproperty
    cases hproperty

/-- What is left of the front assigns nothing. -/
theorem foldl_rest_front {assign : Assignment L V} (hassign : SideAssignment assign)
    (outcome : Outcome L V) :
    (Body.declarations ((side direction).rest front)).foldl (step assign) outcome = outcome := by
  have hnothing : ∀ d ∈ Body.declarations ((side direction).rest front), false = false →
      assign d.property d.value = ∅ := by
    intro d hd _
    rw [Family.declarations_rest] at hd
    obtain ⟨hd, hproperty⟩ := List.mem_filter.1 hd
    exact assign_of_front h hassign hd (by simpa using hproperty)
  have hfilter := foldl_step_filter (p := fun _ => false) hnothing outcome
  rw [← hfilter, List.filter_false]
  rfl

/-- Fusing one side keeps the cascade. -/
theorem run_of_fuses {assign : Assignment L V} (hassign : SideAssignment assign)
    (hdirection : direction ∈ directions) (hbody : ∀ d, .declaration d ∈ body → Tidy d.value) :
    run assign ((side direction).rest front ++ .declaration s :: (side direction).rest back) =
      run assign body := by
  have hback : Body.declarations ((side direction).rest back) = Body.declarations back :=
    Family.declarations_rest_of_contributors h.takesPlace
  calc run assign ((side direction).rest front ++ .declaration s :: (side direction).rest back)
      = (Body.declarations back).foldl (step assign) (step assign (fun _ => none) s) := by
        rw [run, Body.declarations_append, Body.declarations_declaration, hback, List.foldl_append,
          foldl_rest_front h hassign, List.foldl_cons]
    _ = (Body.declarations back).foldl (step assign)
          ((Body.declarations front ++ [anchor]).foldl (step assign) fun _ => none) := by
        rw [foldl_front h hassign hdirection hbody]
    _ = run assign body := by
        rw [← List.foldl_append, List.append_assoc, List.singleton_append, run, h.split,
          Body.declarations_append, Body.declarations_declaration]

/-- The shorthand of a side is as tidy as the values that it takes. -/
theorem tidy_of_fuses (hbody : ∀ d, .declaration d ∈ body → Tidy d.value) {d : Declaration}
    (hd : .declaration d ∈
      (side direction).rest front ++ .declaration s :: (side direction).rest back) :
    Tidy d.value := by
  obtain ⟨width, style, color, hwidth, hstyle, hcolor, hvalue, -⟩ := exists_contributors h hbody
  rw [h.split] at hbody
  rcases List.mem_append.1 hd with hd | hd
  · exact hbody d (List.mem_append_left _ (List.mem_of_mem_filter hd))
  · rcases List.mem_cons.1 hd with heq | hd
    · obtain rfl : d = s := Node.declaration.inj heq
      rw [hvalue]
      exact (Value.tidy_join (by simp [hwidth, hstyle, hcolor]) (by simp)).1
    · exact hbody d (List.mem_append_right _ (List.mem_cons_of_mem _ (List.mem_of_mem_filter hd)))

end Fused

/-! ## All sides -/

/-- Trying one side keeps the cascade and leaves tidy values. -/
theorem run_fuse {assign : Assignment L V} (hassign : SideAssignment assign) {direction : String}
    (hdirection : direction ∈ directions) {body : List Node}
    (hbody : ∀ d, .declaration d ∈ body → Tidy d.value) :
    run assign ((side direction).fuse body).1 = run assign body ∧
      ∀ d, .declaration d ∈ ((side direction).fuse body).1 → Tidy d.value := by
  rw [Family.fuse]
  cases hfuse : (side direction).fuse? body with
  | none => exact ⟨rfl, hbody⟩
  | some fused =>
      obtain ⟨front, anchor, back, s, h, rfl⟩ := Family.fuse?_eq_some (nodup_side direction) hfuse
      exact ⟨run_of_fuses h hassign hdirection hbody, fun d hd => tidy_of_fuses h hbody hd⟩

theorem run_fuseSides_of_subset {assign : Assignment L V} (hassign : SideAssignment assign)
    {sides : List String} (hsides : ∀ direction ∈ sides, direction ∈ directions) {body : List Node}
    (hbody : ∀ d, .declaration d ∈ body → Tidy d.value) :
    run assign (fuseSides body sides).1 = run assign body := by
  induction sides generalizing body with
  | nil => rfl
  | cons direction sides ih =>
      obtain ⟨hrun, htidy⟩ := run_fuse hassign (hsides direction List.mem_cons_self) hbody
      rw [fuseSides, ← hrun]
      exact ih (fun d hd => hsides d (List.mem_cons_of_mem direction hd)) htidy

/-- Fusing the sides of a border leaves every longhand with the value and the importance that it
had. -/
theorem run_fuseSides {assign : Assignment L V} (hassign : SideAssignment assign)
    {body : List Node} (hbody : ∀ d, .declaration d ∈ body → Tidy d.value) :
    run assign (fuseSides body directions).1 = run assign body :=
  run_fuseSides_of_subset hassign (fun _ h => h) hbody

/-! ## Edges of a box -/

/-- The edges of a box that a side stands for, where lines go from left to right and down. -/
def edges : String → List String
  | "" => ["top", "right", "bottom", "left"]
  | "inline" => ["left", "right"]
  | "inline-start" => ["left"]
  | "inline-end" => ["right"]
  | "block" => ["top", "bottom"]
  | "block-start" => ["top"]
  | "block-end" => ["bottom"]
  | direction => [direction]

/-- The properties of all sides with their edges, and with the part that they set unless they are
shorthands. -/
def edgeProperties : List (String × List String × Option String) :=
  directions.flatMap fun direction =>
    [(sideName direction, edges direction, none),
      (sideName direction ++ "-width", edges direction, some "width"),
      (sideName direction ++ "-style", edges direction, some "style"),
      (sideName direction ++ "-color", edges direction, some "color")]

/-- The assignments of a value to one part of some edges. -/
def onEdges (names : List String) (part value : String) : Finset ((String × String) × String) :=
  names.toFinset.image fun edge => ((edge, part), value)

/-- Width, style and color of the four edges as the properties of sides assign them. -/
def edgeAssignment : Assignment (String × String) String := fun property value =>
  match edgeProperties.lookup property, Value.components value with
  | some (names, none), [width, style, color] =>
      onEdges names "width" width ∪ onEdges names "style" style ∪ onEdges names "color" color
  | some (names, some part), [token] => onEdges names part token
  | _, _ => ∅

theorem lookup_edgeProperties : ∀ direction ∈ directions,
    edgeProperties.lookup (sideName direction) = some (edges direction, none) ∧
      edgeProperties.lookup (sideName direction ++ "-width") =
        some (edges direction, some "width") ∧
      edgeProperties.lookup (sideName direction ++ "-style") =
        some (edges direction, some "style") ∧
      edgeProperties.lookup (sideName direction ++ "-color") =
        some (edges direction, some "color") := by
  decide +kernel

theorem disjoint_onEdges {part part' : String} (h : part ≠ part') (names names' : List String)
    (value value' : String) :
    Disjoint (touched (onEdges names part value)) (touched (onEdges names' part' value')) := by
  rw [Finset.disjoint_left]
  intro longhand hleft hright
  simp only [touched, onEdges, Finset.mem_image, exists_exists_and_eq_and] at hleft hright
  obtain ⟨edge, -, rfl⟩ := hleft
  obtain ⟨edge', -, heq⟩ := hright
  exact h (congrArg Prod.snd heq).symm

theorem sideAssignment_edgeAssignment : SideAssignment edgeAssignment := by
  refine ⟨?_, ?_, ?_⟩
  · intro property value hproperty
    have hall : ∀ entry ∈ edgeProperties, isSideProperty entry.1 = true := by decide +kernel
    have hnone : edgeProperties.lookup property = none := by
      rw [List.lookup_eq_none_iff]
      intro entry hentry
      rw [bne_iff_ne]
      rintro rfl
      rw [hall entry hentry] at hproperty
      cases hproperty
    rw [edgeAssignment, hnone]
  · intro direction hdirection width style color hwidth hstyle hcolor
    obtain ⟨hshort, hw, hs, hc⟩ := lookup_edgeProperties direction hdirection
    have hjoin : Value.components (Text.join " " [width, style, color]) = [width, style, color] :=
      Value.components_join (by simp [hwidth, hstyle, hcolor])
    simp only [edgeAssignment, hshort, hw, hs, hc, hjoin, hwidth.components_eq,
      hstyle.components_eq, hcolor.components_eq]
  · intro direction hdirection width style color hwidth hstyle hcolor
    obtain ⟨-, hw, hs, hc⟩ := lookup_edgeProperties direction hdirection
    simp only [edgeAssignment, hw, hs, hc, hwidth.components_eq, hstyle.components_eq,
      hcolor.components_eq]
    exact ⟨disjoint_onEdges (by decide) _ _ _ _, disjoint_onEdges (by decide) _ _ _ _,
      disjoint_onEdges (by decide) _ _ _ _⟩

/-- The longhands of the top side, important and in another order than in the shorthand, before
declarations that assign the same edge. -/
def topLonghands : List Node :=
  [.declaration ⟨"border-top-style", "solid", true⟩, .rule "&:hover" [],
    .declaration ⟨"border-top-color", "rgb(0, 0, 0)", true⟩,
    .declaration ⟨"border-top-width", "calc(1px + 2px)", true⟩,
    .declaration ⟨"border-block-width", "2px", false⟩,
    .declaration ⟨"border", "1px dotted red", false⟩]

theorem fuse?_topLonghands :
    (side "top").fuse? topLonghands =
      some [.rule "&:hover" [],
        .declaration ⟨"border-top", "calc(1px + 2px) solid rgb(0, 0, 0)", true⟩,
        .declaration ⟨"border-block-width", "2px", false⟩,
        .declaration ⟨"border", "1px dotted red", false⟩] := by
  simp only [Family.fuse?, Family.anchorIn?, Slots.sharedImportance?, Slots.hasInterference,
    Slots.indices_eq_insertionSort]
  decide +kernel

/-- The top side is fused, and no edge changes. -/
theorem run_fuseSides_topLonghands :
    SideAssignment edgeAssignment ∧ (∀ d, .declaration d ∈ topLonghands → Tidy d.value) ∧
      ((side "top").fuse? topLonghands).isSome = true ∧
      run edgeAssignment (fuseSides topLonghands directions).1 =
        run edgeAssignment topLonghands := by
  have htidy : ∀ d ∈ Body.declarations topLonghands, Tidy d.value := by decide
  have hbody : ∀ d, .declaration d ∈ topLonghands → Tidy d.value := by
    intro d hd
    exact htidy d (Body.mem_declarations.2 hd)
  exact ⟨sideAssignment_edgeAssignment, hbody, by rw [fuse?_topLonghands]; rfl,
    run_fuseSides sideAssignment_edgeAssignment hbody⟩

end Stylesheet.Border
