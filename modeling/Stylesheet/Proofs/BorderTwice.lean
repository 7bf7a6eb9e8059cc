import Stylesheet.Proofs.FusionTwice

/-!
# Borders fused twice

Borders are fused in three groups, one after the other: sides, images, radii.  A second run can find
something that the first did not: the whole border is tried first and does not pass longhands of its
image, but these are fused afterwards, and the shorthand of the image may stand behind those of the
border.  Then nothing is in the way of the border any more.

* `Uncovers` says when this happens in a body.  No other group is uncovered: sides get in the way of each
  other whether they are fused or not (`plainSide_unique`, `plainSide_fused`), and nothing that is
  fused counts for images and radii (`fuseRest_fuseRest`).
* After one run a body is settled, or the whole border is uncovered in it, is fused in the second run,
  and the body is settled then (`fuseBody_settles`).
* The main result is `optimize_optimize_iff`: what a second and a third run do to a tree.

A family is compared with `plainSide`, for which border images do not matter.
-/

namespace Stylesheet

namespace Border

/-! ## Sides -/

/-- A side as if border images did not matter. -/
def plainSide (direction : String) : Family := { side direction with interferes := isSideProperty }

theorem within_plainSide :
    ∀ direction ∈ directions, (plainSide direction).Within isSideProperty := by
  have hnames : ∀ direction ∈ directions, isSideProperty (sideName direction) = true ∧
      ∀ name ∈ (side direction).longhands, isSideProperty name = true := by decide +kernel
  intro direction hdirection
  exact ⟨(hnames direction hdirection).1, (hnames direction hdirection).2, fun _ h => h,
    fun _ h => by cases h⟩

theorem nodup_plainSide (direction : String) : (plainSide direction).longhands.Nodup :=
  nodup_side direction

/-- A side that is fused is fused also when border images do not matter. -/
theorem plainSide_of_side {direction : String} {body fused : List Node}
    (h : (side direction).fuse? body = some fused) :
    (plainSide direction).fuse? body = some fused := by
  obtain ⟨front, anchor, back, s, hcut, rfl⟩ := Family.fuse?_eq_some (nodup_side direction) h
  have hplain : (plainSide direction).Fuses body front anchor back s :=
    ⟨hcut.split, hcut.anchor_mem, hcut.takesPlace, hcut.once, hcut.property_eq, hcut.value_eq,
      hcut.important_eq, hcut.not_excludes, fun hbody hd hinterferes =>
        hcut.clear hbody hd ((Bool.or_eq_true _ _).mpr (.inl hinterferes))⟩
  exact hplain.fuse?_eq (nodup_plainSide direction)

theorem side_eq_none {direction : String} {body : List Node}
    (h : (plainSide direction).fuse? body = none) : (side direction).fuse? body = none := by
  cases hfuse : (side direction).fuse? body with
  | none => rfl
  | some fused =>
      rw [plainSide_of_side hfuse] at h
      cases h

/-- No longhand belongs to two sides, and no shorthand of a side is a longhand of one. -/
theorem sides_apart : ∀ a ∈ directions, ∀ b ∈ directions,
    sideName a ∉ (side b).longhands ∧
      (a ≠ b → ∀ name ∈ (side a).longhands, name ∉ (side b).longhands) := by
  decide +kernel

/-- At most one side can be fused in a body. -/
theorem plainSide_unique {a b : String} (ha : a ∈ directions) (hb : b ∈ directions)
    {body fused fused' : List Node} (hfuse : (plainSide a).fuse? body = some fused)
    (hfuse' : (plainSide b).fuse? body = some fused') : a = b := by
  obtain ⟨first, others, hbody, hfirst⟩ := Family.exists_head_of_fuse? (nodup_plainSide a)
    (within_plainSide a ha) (fun _ h => h) hfuse
  obtain ⟨first', others', hbody', hfirst'⟩ := Family.exists_head_of_fuse? (nodup_plainSide b)
    (within_plainSide b hb) (fun _ h => h) hfuse'
  obtain rfl : first = first' := (List.cons.inj (hbody.symm.trans hbody')).1
  by_contra hne
  exact (sides_apart a ha b hb).2 hne _ hfirst hfirst'

/-- Where a side has been fused, its shorthand is in the way of all sides. -/
theorem plainSide_fused {a b : String} (ha : a ∈ directions) (hb : b ∈ directions)
    {body fused : List Node} (hfuse : (side a).fuse? body = some fused) :
    (plainSide b).fuse? fused = none := by
  obtain ⟨first, others, hfused, hfirst⟩ := Family.exists_head_fused (nodup_plainSide a)
    (within_plainSide a ha) (fun _ h => h) (plainSide_of_side hfuse)
  have hmem := (Body.mem_concerning.1 (hfused ▸ List.mem_cons_self : first ∈ _)).2
  refine Family.fuse?_eq_none_of_concerning (nodup_plainSide b) (within_plainSide b hb).longhands
    hfused ?_ hmem
  rw [hfirst]
  exact (sides_apart a ha b hb).1

theorem fuseSides_cons_of_none {direction : String} {body : List Node}
    (h : (side direction).fuse? body = none) (sides : List String) :
    fuseSides body (direction :: sides) = fuseSides body sides := by
  simp only [fuseSides, Family.fuse, h, Nat.zero_add]

theorem fuseSides_of_none {sides : List String} {body : List Node}
    (h : ∀ direction ∈ sides, (side direction).fuse? body = none) :
    fuseSides body sides = (body, 0) := by
  induction sides with
  | nil => rfl
  | cons direction sides ih =>
      obtain ⟨hfirst, hothers⟩ := List.forall_mem_cons.1 h
      rw [fuseSides_cons_of_none hfirst, ih hothers]

/-- Trying the sides one after the other fuses one or none. -/
theorem fuseSides_cases {sides : List String}
    (hsides : ∀ direction ∈ sides, direction ∈ directions) (body : List Node) :
    (∀ direction ∈ sides, (side direction).fuse? body = none) ∨
      ∃ direction ∈ sides, ∃ fused, (side direction).fuse? body = some fused ∧
        fuseSides body sides = (fused, 1) := by
  induction sides with
  | nil => exact .inl fun _ h => absurd h List.not_mem_nil
  | cons direction sides ih =>
      obtain ⟨hfirst, hothers⟩ := List.forall_mem_cons.1 hsides
      cases hfuse : (side direction).fuse? body with
      | some fused =>
          have hnone : ∀ other ∈ sides, (side other).fuse? fused = none := fun other hother =>
            side_eq_none (plainSide_fused hfirst (hothers other hother) hfuse)
          refine .inr ⟨direction, List.mem_cons_self, fused, hfuse, ?_⟩
          simp only [fuseSides, Family.fuse, hfuse, fuseSides_of_none hnone, Nat.add_zero]
      | none =>
          rcases ih hothers with hnone | ⟨other, hother, fused, hfused, hsides⟩
          · exact .inl (List.forall_mem_cons.2 ⟨hfuse, hnone⟩)
          · refine .inr ⟨other, List.mem_cons_of_mem _ hother, fused, hfused, ?_⟩
            rw [fuseSides_cons_of_none hfuse, hsides]

/-! ## Images and radii -/

/-- What is done to a body behind the sides. -/
def fuseRest (body : List Node) : List Node := (radius.fuse (image.fuse body).1).1

theorem fuseBody_of_fuseSides {body sided : List Node} {n : Nat}
    (h : fuseSides body directions = (sided, n)) :
    fuseBody body = (fuseRest sided,
      ⟨n, (image.fuse sided).2, (radius.fuse (image.fuse sided).1).2⟩) := by
  rw [fuseBody, h]
  rfl

/-- What counts for the border image. -/
def isImageProperty (name : String) : Bool :=
  imageLonghands.contains name || image.interferes name

theorem within_isImageProperty : image.Within isImageProperty := by
  refine ⟨by decide, by decide, fun name h => ?_, fun _ h => by cases h⟩
  rw [isImageProperty, h, Bool.or_true]

theorem concerning_fuseRest {p : String → Bool} (himage : image.Avoids p) (hradius : radius.Avoids p)
    (body : List Node) : Body.concerning p (fuseRest body) = Body.concerning p body := by
  rw [fuseRest, Family.concerning_fuse nodup_radius hradius, Family.concerning_fuse nodup_image himage]

/-- The border image is no part of a side. -/
theorem image_avoids_sides : image.Avoids isSideProperty := by decide

/-- The radii are no part of a side, and of the border image. -/
theorem radius_avoids_sides : radius.Avoids isSideProperty := by decide

theorem radius_avoids_image : radius.Avoids isImageProperty := by decide

theorem radius_avoids_interferes : radius.Avoids (side "").interferes := by decide

theorem shorthand_notMem_image : image.shorthand ∉ image.longhands := by decide

/-- Images and radii are fused at most once. -/
theorem fuseRest_fuseRest (body : List Node) :
    image.fuse? (fuseRest body) = none ∧ radius.fuse? (fuseRest body) = none := by
  refine ⟨?_, Family.fuse?_fuse nodup_radius (by decide) _⟩
  rw [fuseRest, Family.fuse?_eq_none_congr nodup_image within_isImageProperty
    (Family.concerning_fuse nodup_radius radius_avoids_image _)]
  exact Family.fuse?_fuse nodup_image shorthand_notMem_image body

/-- A body in which nothing can be fused stays as it is. -/
theorem fuseBody_of_none {body : List Node}
    (hsides : ∀ direction ∈ directions, (side direction).fuse? body = none)
    (himage : image.fuse? body = none) (hradius : radius.fuse? body = none) :
    fuseBody body = (body, {}) := by
  simp only [fuseBody_of_fuseSides (fuseSides_of_none hsides), fuseRest, Family.fuse, himage, hradius]

/-! ## What the border image uncovers -/

/-- The longhands of the whole border would be fused but for longhands of the border image before the
last of them, and these are fused behind it. -/
def Uncovers (body : List Node) : Prop :=
  ∃ front last back s, (plainSide "").Fuses body front last back s ∧
    (∃ d, .declaration d ∈ front ∧ Text.startsWith "border-image" d.property = true) ∧
    (∀ d, .declaration d ∈ front → Text.startsWith "border-image" d.property = true →
      d.property ∈ imageLonghands) ∧
    ∃ front' last' back' s', image.Fuses body front' last' back' s' ∧ .declaration last' ∈ back

theorem startsWith_imageLonghands :
    ∀ name ∈ imageLonghands, Text.startsWith "border-image" name = true := by decide

section Cut

variable {body front back : List Node} {last s : Declaration}

/-- A side that is fused when border images do not matter is fused if none stands before its last
longhand. -/
theorem side_of_plainSide (h : (plainSide "").Fuses body front last back s)
    (hfront : ∀ d, .declaration d ∈ front → Text.startsWith "border-image" d.property = false) :
    (side "").Fuses body front last back s := by
  refine ⟨h.split, h.anchor_mem, h.takesPlace, h.once, h.property_eq, h.value_eq, h.important_eq,
    h.not_excludes, ?_⟩
  intro a d b hbody hd hinterferes
  rcases (Bool.or_eq_true _ _).mp hinterferes with hside | himage
  · exact h.clear hbody hd hside
  have hstarts : Text.startsWith "border-image" d.property = true := ((Bool.and_eq_true _ _).mp himage).2
  have hback : (side "").contributors back = [] := h.takesPlace
  rcases Body.split_trichotomy (h.split.symm.trans hbody) with
    ⟨c, rfl, -⟩ | ⟨-, hnode, -⟩ | ⟨c, -, rfl⟩
  · rw [hfront d (by simp)] at hstarts
    cases hstarts
  · obtain rfl := Node.declaration.inj hnode
    exact absurd h.anchor_mem hd
  · rw [Family.contributors_append, List.append_eq_nil_iff, ← List.singleton_append,
      Family.contributors_append, List.append_eq_nil_iff] at hback
    exact hback.2.2

/-- Where a side is fused, no border image stands before its last longhand. -/
theorem front_of_side {fused : List Node} (hfuse : (side "").fuse? body = some fused)
    (hbody : body = front ++ .declaration last :: back)
    (hlast : last.property ∈ (side "").longhands) {d : Declaration} (hd : .declaration d ∈ front) :
    Text.startsWith "border-image" d.property = false := by
  obtain ⟨front', last', back', s', h, -⟩ := Family.fuse?_eq_some (nodup_side "") hfuse
  obtain ⟨a, b, rfl⟩ := List.append_of_mem hd
  cases hstarts : Text.startsWith "border-image" d.property with
  | false => rfl
  | true =>
      have hnot : ∀ name ∈ (side "").longhands, Text.startsWith "border-image" name = false := by
        decide
      have hd : d.property ∉ (side "").longhands := Family.notMem_longhands hnot hstarts
      have hinterferes : (side "").interferes d.property = true :=
        (Bool.or_eq_true _ _).mpr (.inr hstarts)
      have hnone := h.clear (a := a) (b := b ++ .declaration last :: back)
        (by rw [hbody, List.append_assoc, List.cons_append]) hd hinterferes
      have hmem : last ∈ (side "").contributors (b ++ .declaration last :: back) :=
        Family.mem_contributors.2 ⟨by simp, hlast⟩
      rw [hnone] at hmem
      cases hmem

/-- Fusing the border image takes all of it from a front if this holds longhands of it and not the one
whose place the shorthand takes. -/
theorem replace_image_iff {place : String} (hplace : place ∈ imageLonghands)
    (hs : s.property = "border-image") :
    (∀ d, .declaration d ∈ Body.replace (image.replacement place s) front →
        Text.startsWith "border-image" d.property = false) ↔
      ∀ d, .declaration d ∈ front → Text.startsWith "border-image" d.property = true →
        d.property ∈ imageLonghands ∧ d.property ≠ place := by
  have hmem : ∀ d, .declaration d ∈ Body.replace (image.replacement place s) front ↔
      ∃ e, .declaration e ∈ front ∧ d ∈ image.replacement place s e := by
    intro d
    rw [← Body.mem_declarations, Body.declarations_replace, List.mem_flatMap]
    simp only [Body.mem_declarations]
  have hlonghands : image.longhands = imageLonghands := rfl
  constructor
  · intro hclear d hd hstarts
    have hne : d.property ≠ place := by
      intro hhere
      have hnone := hclear s ((hmem s).2 ⟨d, hd, by rw [Family.replacement, if_pos hhere]; simp⟩)
      rw [hs] at hnone
      exact absurd hnone (by decide)
    refine ⟨?_, hne⟩
    by_contra hnot
    have hkept : d ∈ image.replacement place s d := by
      rw [Family.replacement, if_neg hne, hlonghands, if_neg (by simpa using hnot)]
      exact List.mem_singleton_self d
    rw [hclear d ((hmem d).2 ⟨d, hd, hkept⟩)] at hstarts
    cases hstarts
  · intro hfront d hd
    obtain ⟨e, he, hde⟩ := (hmem d).1 hd
    cases hstarts : Text.startsWith "border-image" d.property with
    | false => rfl
    | true =>
        rw [Family.replacement] at hde
        split at hde
        · next hhere =>
            rw [← hhere] at hplace
            exact absurd hhere (hfront e he (startsWith_imageLonghands _ hplace)).2
        · next hne =>
            split at hde
            · cases hde
            · next hnot =>
                obtain rfl := List.mem_singleton.1 hde
                exact absurd (List.contains_iff_mem.2 (hfront d he hstarts).1) hnot

end Cut

/-- No longhand of the whole border is one of its image. -/
theorem notMem_longhands_image : ∀ name ∈ (side "").longhands, name ∉ image.longhands := by decide

/-- A body with the border image fused can be cut where the body can be cut at the whole border. -/
theorem fuse_image_eq {body front back front' back' : List Node} {last last' s' : Declaration}
    (h : image.Fuses body front' last' back' s') (hbody : body = front ++ .declaration last :: back)
    (hlast : last.property ∈ (side "").longhands) :
    (image.fuse body).1 = Body.replace (image.replacement last'.property s') front ++
      .declaration last :: Body.replace (image.replacement last'.property s') back := by
  have hnot := notMem_longhands_image _ hlast
  have hne : last.property ≠ last'.property := by
    intro heq
    exact hnot (heq ▸ h.anchor_mem)
  have hkeep : image.replacement last'.property s' last = [last] := by
    rw [Family.replacement, if_neg hne, if_neg fun hmem => hnot (List.contains_iff_mem.1 hmem)]
  rw [Family.fuse_of_some (h.fuse?_eq nodup_image), ← h.replace_eq, hbody, Body.replace,
    List.flatMap_append, List.flatMap_cons, Node.replace, hkeep]
  rfl

theorem concerning_fuse_image (body : List Node) :
    Body.concerning isSideProperty (image.fuse body).1 = Body.concerning isSideProperty body :=
  Family.concerning_fuse nodup_image image_avoids_sides body

/-- What is uncovered is fused once the border image is. -/
theorem Uncovers.fuse?_ne_none {body : List Node} (h : Uncovers body) :
    (side "").fuse? (image.fuse body).1 ≠ none := by
  obtain ⟨front, last, back, s, hcut, -, hfront, front', last', back', s', himage, hback⟩ := h
  obtain ⟨front₂, back₂, hcut₂⟩ :=
    hcut.transfer (within_plainSide "" List.mem_cons_self) (concerning_fuse_image body)
  obtain ⟨rfl, -, rfl⟩ := Body.eq_of_split (hcut₂.once _ hcut₂.anchor_mem) rfl rfl hcut₂.split
    (fuse_image_eq himage hcut.split hcut.anchor_mem)
  have hclear : ∀ d, .declaration d ∈ Body.replace (image.replacement last'.property s') front →
      Text.startsWith "border-image" d.property = false := by
    refine (replace_image_iff himage.anchor_mem himage.property_eq).2 fun e he hstarts => ?_
    refine ⟨hfront e he hstarts, fun heq => ?_⟩
    -- The longhand whose place the shorthand takes is in the back, and no longhand comes twice.
    obtain ⟨a, b, rfl⟩ := List.append_of_mem he
    obtain ⟨c, c', rfl⟩ := List.append_of_mem hback
    have honce := himage.once _ himage.anchor_mem
    have htwo := Body.two_le_count (a := a) (b := b ++ .declaration last :: c) (c := c') heq
      (Eq.refl last'.property)
    rw [hcut.split, List.append_assoc, List.cons_append] at honce
    rw [List.append_assoc, List.cons_append] at htwo
    exact Nat.not_le.2 htwo honce
  rw [(side_of_plainSide hcut₂ hclear).fuse?_eq (nodup_side "")]
  exact Option.some_ne_none _

theorem Uncovers.fuse?_eq_none {body : List Node} (h : Uncovers body) :
    (side "").fuse? body = none := by
  obtain ⟨front, last, back, s, hcut, ⟨d, hd, hstarts⟩, -⟩ := h
  cases hfuse : (side "").fuse? body with
  | none => rfl
  | some fused =>
      rw [front_of_side hfuse hcut.split hcut.anchor_mem hd] at hstarts
      cases hstarts

/-- What is fused once the border image is, and not before, is uncovered. -/
theorem uncovers_of_fuse? {body : List Node} (hnone : (side "").fuse? body = none)
    (hsome : (side "").fuse? (image.fuse body).1 ≠ none) : Uncovers body := by
  obtain ⟨fused, hfuse⟩ := Option.ne_none_iff_exists'.1 hsome
  cases himage : image.fuse? body with
  | none =>
      rw [Family.fuse_of_none himage, hnone] at hfuse
      cases hfuse
  | some imaged =>
      obtain ⟨front', last', back', s', himage, -⟩ := Family.fuse?_eq_some nodup_image himage
      obtain ⟨front₂, last, back₂, s, hcut₂, -⟩ :=
        Family.fuse?_eq_some (nodup_plainSide "") (plainSide_of_side hfuse)
      obtain ⟨front, back, hcut⟩ := hcut₂.transfer (within_plainSide "" List.mem_cons_self)
        (concerning_fuse_image body).symm
      have hsplit := fuse_image_eq himage hcut.split hcut.anchor_mem
      have hfront := (replace_image_iff himage.anchor_mem himage.property_eq).1 fun d hd =>
        front_of_side hfuse hsplit hcut.anchor_mem hd
      have hstands : ∃ d, .declaration d ∈ front ∧
          Text.startsWith "border-image" d.property = true := by
        by_contra hclear
        have hside := side_of_plainSide hcut fun d hd => by
          by_contra hstarts
          exact hclear ⟨d, hd, by simpa using hstarts⟩
        rw [hside.fuse?_eq (nodup_side "")] at hnone
        cases hnone
      refine ⟨front, last, back, s, hcut, hstands, fun d hd hstarts => (hfront d hd hstarts).1, front',
        last', back', s', himage, ?_⟩
      have hmem : .declaration last' ∈ front ++ .declaration last :: back := by
        rw [← hcut.split, himage.split]
        simp
      rcases List.mem_append.1 hmem with hmem | hmem
      · exact absurd rfl (hfront last' hmem (startsWith_imageLonghands _ himage.anchor_mem)).2
      · rcases List.mem_cons.1 hmem with heq | hmem
        · obtain rfl := Node.declaration.inj heq
          exact absurd himage.anchor_mem (notMem_longhands_image _ hcut.anchor_mem)
        · exact hmem

/-! ## Bodies after one run, and after two -/

/-- A body in which nothing is fused: it stays as it is. -/
def Settled (body : List Node) : Prop := fuseBody body = (body, {})

theorem Settled.body_eq {body : List Node} (h : Settled body) : (fuseBody body).1 = body := by
  rw [Settled] at h
  rw [h]

theorem Settled.report_eq {body : List Node} (h : Settled body) : (fuseBody body).2 = {} := by
  rw [Settled] at h
  rw [h]

/-- Where a side has been fused, and the rest after it, nothing more is. -/
theorem settled_fuseRest_side {direction : String} (hdirection : direction ∈ directions)
    {body sided : List Node} (hfuse : (side direction).fuse? body = some sided) :
    Settled (fuseRest sided) := by
  have hsides : ∀ other ∈ directions, (side other).fuse? (fuseRest sided) = none := by
    intro other hother
    refine side_eq_none ?_
    rw [Family.fuse?_eq_none_congr (nodup_plainSide other) (within_plainSide other hother)
      (concerning_fuseRest image_avoids_sides radius_avoids_sides sided)]
    exact plainSide_fused hdirection hother hfuse
  exact fuseBody_of_none hsides (fuseRest_fuseRest sided).1 (fuseRest_fuseRest sided).2

/-- What counts for the radii. -/
def isRadiusProperty (name : String) : Bool :=
  radiusLonghands.contains name || radius.interferes name

theorem within_isRadiusProperty : radius.Within isRadiusProperty := by
  refine ⟨by decide, by decide, fun name h => ?_, fun _ h => by cases h⟩
  rw [isRadiusProperty, h, Bool.or_true]

/-- What counts for the whole border is what interferes with it. -/
theorem within_interferes : (side "").Within (side "").interferes :=
  ⟨by decide, by decide, fun _ h => h, fun _ h => by cases h⟩

/-- What is uncovered is fused in a second run, and nothing else is, and then the body is settled. -/
theorem Uncovers.fuseBody_fuseRest {body : List Node} (h : Uncovers body) :
    ∃ bordered, (side "").fuse? (fuseRest body) = some bordered ∧
      fuseBody (fuseRest body) = (bordered, ⟨1, 0, 0⟩) ∧ Settled bordered := by
  have hsome : (side "").fuse? (fuseRest body) ≠ none := by
    rw [fuseRest, Ne, Family.fuse?_eq_none_congr (nodup_side "") within_interferes
      (Family.concerning_fuse nodup_radius radius_avoids_interferes _)]
    exact h.fuse?_ne_none
  obtain ⟨bordered, hfuse⟩ := Option.ne_none_iff_exists'.1 hsome
  have hsides : fuseSides (fuseRest body) directions = (bordered, 1) := by
    rcases fuseSides_cases (fun _ h => h) (fuseRest body) with
      hnone | ⟨direction, hdirection, fused, hfused, hsides⟩
    · rw [hnone "" List.mem_cons_self] at hfuse
      cases hfuse
    · obtain rfl := plainSide_unique hdirection List.mem_cons_self (plainSide_of_side hfused)
        (plainSide_of_side hfuse)
      rw [hsides, Option.some.inj (hfused.symm.trans hfuse)]
  have himage : image.fuse? bordered = none := by
    refine Family.fuse?_eq_none_of_contributors nodup_image ?_
    obtain ⟨-, -, -, -, -, -, -, front, last, back, s, hcut, -⟩ := h
    have hsame : Body.concerning image.longhands.contains bordered =
        Body.concerning image.longhands.contains (image.fuse body).1 := by
      rw [← Family.fuse_of_some hfuse, Family.concerning_fuse (nodup_side "") (by decide), fuseRest,
        Family.concerning_fuse nodup_radius (by decide)]
    exact hsame.trans (Family.contributors_of_fuse? nodup_image shorthand_notMem_image
      (Family.fuse_of_some (hcut.fuse?_eq nodup_image) ▸ hcut.fuse?_eq nodup_image))
  have hradius : radius.fuse? bordered = none := by
    rw [← Family.fuse_of_some hfuse, Family.fuse?_eq_none_congr nodup_radius within_isRadiusProperty
      (Family.concerning_fuse (nodup_side "") (by decide) _)]
    exact (fuseRest_fuseRest body).2
  have hrest : fuseRest bordered = bordered := by
    rw [fuseRest, Family.fuse_of_none himage, Family.fuse_of_none hradius]
  refine ⟨bordered, hfuse, ?_, ?_⟩
  · rw [fuseBody_of_fuseSides hsides, hrest]
    simp only [Family.fuse, himage, hradius]
  · rw [← hrest]
    exact settled_fuseRest_side List.mem_cons_self hfuse

/-- Where no side is fused and nothing is uncovered, no side is fused once images and radii are. -/
theorem fuse?_fuseRest_eq_none {direction : String} (hdirection : direction ∈ directions)
    {body : List Node} (hnone : (side direction).fuse? body = none) (h : ¬ Uncovers body) :
    (side direction).fuse? (fuseRest body) = none := by
  rcases List.mem_cons.1 hdirection with rfl | hother
  · rw [fuseRest, Family.fuse?_eq_none_congr (nodup_side "") within_interferes
      (Family.concerning_fuse nodup_radius radius_avoids_interferes _)]
    by_contra hsome
    exact h (uncovers_of_fuse? hnone hsome)
  · -- The image does not count for a side other than the whole border.
    have hempty : ∀ direction ∈ directions.tail, direction.isEmpty = false := by decide
    obtain ⟨hshorthand, hlonghands, -, hexcludes⟩ := within_plainSide direction hdirection
    have hwithin : (side direction).Within isSideProperty := by
      refine ⟨hshorthand, hlonghands, fun name hname => ?_, hexcludes⟩
      simpa [side, hempty direction hother] using hname
    rwa [Family.fuse?_eq_none_congr (nodup_side direction) hwithin
      (concerning_fuseRest image_avoids_sides radius_avoids_sides body)]

/-- After one run a body is settled, or the whole border is uncovered in it. -/
theorem fuseBody_settles (body : List Node) :
    (¬ Uncovers body ∧ Settled (fuseBody body).1) ∨
      (Uncovers body ∧ ∃ bordered, (side "").fuse? (fuseBody body).1 = some bordered ∧
        fuseBody (fuseBody body).1 = (bordered, ⟨1, 0, 0⟩) ∧ Settled bordered) := by
  rcases fuseSides_cases (fun _ h => h) body with
    hnone | ⟨direction, hdirection, sided, hfuse, hsides⟩
  · rw [fuseBody_of_fuseSides (fuseSides_of_none hnone)]
    by_cases h : Uncovers body
    · exact .inr ⟨h, h.fuseBody_fuseRest⟩
    · refine .inl ⟨h, fuseBody_of_none ?_ (fuseRest_fuseRest body).1 (fuseRest_fuseRest body).2⟩
      exact fun other hother => fuse?_fuseRest_eq_none hother (hnone other hother) h
  · rw [fuseBody_of_fuseSides hsides]
    refine .inl ⟨fun h => ?_, settled_fuseRest_side hdirection hfuse⟩
    obtain ⟨front, last, back, s, hcut, -⟩ := id h
    obtain rfl := plainSide_unique hdirection List.mem_cons_self (plainSide_of_side hfuse)
      (hcut.fuse?_eq (nodup_plainSide ""))
    rw [h.fuse?_eq_none] at hfuse
    cases hfuse

/-- A second run never finds an image or radii. -/
theorem report_fuseBody_fuseBody (body : List Node) :
    (fuseBody (fuseBody body).1).2.images = 0 ∧ (fuseBody (fuseBody body).1).2.radii = 0 := by
  rcases fuseBody_settles body with ⟨-, hsettled⟩ | ⟨-, bordered, -, hagain, -⟩
  · rw [hsettled.report_eq]
    exact ⟨rfl, rfl⟩
  · rw [hagain]
    exact ⟨rfl, rfl⟩

theorem settled_fuseBody_fuseBody (body : List Node) : Settled (fuseBody (fuseBody body).1).1 := by
  rcases fuseBody_settles body with ⟨-, hsettled⟩ | ⟨-, bordered, -, hagain, hsettled⟩
  · rwa [hsettled.body_eq]
  · rwa [hagain]

/-! ## Trees -/

theorem run_mapBodies (f : List Node → List Node) (body : List Node) :
    fuseBody (Node.mapBodies f body) = (Node.mapBodies f (fuseBody body).1, (fuseBody body).2) :=
  Pass.border.run_mapBodies f body

theorem bodies_optimize (nodes : List Node) :
    Node.bodies (optimize nodes) =
      (Node.bodies nodes).map fun body =>
        Node.mapBodies (fun inner => (fuseBody inner).1) (fuseBody body).1 :=
  Pass.border.bodies_optimize nodes

theorem Settled.mapBodies {body : List Node} (h : Settled body) (f : List Node → List Node) :
    Settled (Node.mapBodies f body) := by
  rw [Settled, run_mapBodies, h]

theorem eq_empty_of_foldl_add {reports : List Report} {r : Report}
    (h : reports.foldl Report.add r = {}) : r = {} ∧ ∀ x ∈ reports, x = {} := by
  induction reports generalizing r with
  | nil => exact ⟨h, fun _ hx => absurd hx List.not_mem_nil⟩
  | cons x reports ih =>
      obtain ⟨hsum, hall⟩ := ih h
      rw [Report.add, Report.mk.injEq] at hsum
      have hr : r = {} := by cases r; simp_all
      have hx : x = {} := by cases x; simp_all
      exact ⟨hr, List.forall_mem_cons.2 ⟨hx, hall⟩⟩

theorem report_eq_empty_iff {nodes : List Node} :
    report nodes = {} ↔ ∀ body ∈ Node.bodies nodes, (fuseBody body).2 = {} := by
  constructor
  · exact fun h => List.forall_mem_map.1 (eq_empty_of_foldl_add h).2
  · intro h
    refine List.foldlRecOn (motive := fun r => r = {}) _ Report.add rfl ?_
    intro r hr x hx
    obtain ⟨body, hbody, rfl⟩ := List.mem_map.1 hx
    rw [hr, h body hbody]
    rfl

/-- A tree with settled bodies stays as it is, and nothing is reported. -/
theorem optimize_of_settled {nodes : List Node} (h : ∀ body ∈ Node.bodies nodes, Settled body) :
    optimize nodes = nodes ∧ report nodes = {} :=
  ⟨Node.mapBodies_eq_self fun body hbody => (h body hbody).body_eq,
    report_eq_empty_iff.2 fun body hbody => (h body hbody).report_eq⟩

/-- A second run of the pass never finds a border image or radii. -/
theorem report_optimize (nodes : List Node) :
    (report (optimize nodes)).images = 0 ∧ (report (optimize nodes)).radii = 0 := by
  rw [report, bodies_optimize, List.map_map]
  refine List.foldlRecOn (motive := fun r => r.images = 0 ∧ r.radii = 0) _ Report.add ?_ ?_
  · exact ⟨rfl, rfl⟩
  · rintro r ⟨himages, hradii⟩ x hx
    obtain ⟨body, -, rfl⟩ := List.mem_map.1 hx
    obtain ⟨himages', hradii'⟩ := report_fuseBody_fuseBody body
    rw [Function.comp_apply, run_mapBodies, Report.add, himages, hradii, himages', hradii']
    exact ⟨rfl, rfl⟩

/-- A second run of the pass reports nothing exactly when the first uncovers no border. -/
theorem report_optimize_eq_empty_iff {nodes : List Node} :
    report (optimize nodes) = {} ↔ ∀ body ∈ Node.bodies nodes, ¬ Uncovers body := by
  have hempty : ∀ body, (fuseBody (fuseBody body).1).2 = {} ↔ ¬ Uncovers body := by
    intro body
    rcases fuseBody_settles body with ⟨hnot, hsettled⟩ | ⟨huncovers, bordered, -, hagain, -⟩
    · exact iff_of_true hsettled.report_eq hnot
    · rw [hagain]
      exact iff_of_false (fun h => by cases h) (not_not_intro huncovers)
  rw [report_eq_empty_iff, bodies_optimize, List.forall_mem_map]
  simp only [run_mapBodies, hempty]

/-- A second run of the pass leaves the tree exactly when the first uncovers no border. -/
theorem optimize_optimize_eq_iff {nodes : List Node} :
    optimize (optimize nodes) = optimize nodes ↔ ∀ body ∈ Node.bodies nodes, ¬ Uncovers body := by
  constructor
  · intro hsame body hbody huncovers
    rcases fuseBody_settles body with ⟨hnot, -⟩ | ⟨-, bordered, hfuse, hagain, -⟩
    · exact hnot huncovers
    -- A body that is fused again has one border more.
    have hbodies := congrArg Node.bodies hsame
    rw [bodies_optimize, bodies_optimize, List.map_map, List.map_inj_left] at hbodies
    have hdeclarations := congrArg Body.declarations (hbodies body hbody)
    rw [Function.comp_apply, run_mapBodies, hagain] at hdeclarations
    simp only [Node.declarations_mapBodies] at hdeclarations
    have hcount := Family.count_of_fuse? (nodup_side "") (by decide) hfuse
    rw [Body.count_eq_length, Body.count_eq_length, Body.declared, hdeclarations] at hcount
    exact absurd hcount (Nat.ne_of_lt (Nat.lt_succ_self _))
  · intro h
    refine (optimize_of_settled ?_).1
    rw [bodies_optimize, List.forall_mem_map]
    intro body hbody
    rcases fuseBody_settles body with ⟨-, hsettled⟩ | ⟨huncovers, -⟩
    · exact hsettled.mapBodies _
    · exact absurd huncovers (h body hbody)

/-- A third run of the pass finds nothing. -/
theorem optimize_thrice (nodes : List Node) :
    optimize (optimize (optimize nodes)) = optimize (optimize nodes) ∧
      report (optimize (optimize nodes)) = {} := by
  have hsettled : ∀ body ∈ Node.bodies (optimize (optimize nodes)), Settled body := by
    rw [bodies_optimize, bodies_optimize, List.map_map, List.forall_mem_map]
    intro body _
    rw [Function.comp_apply, run_mapBodies]
    dsimp only
    exact ((settled_fuseBody_fuseBody body).mapBodies _).mapBodies _
  exact optimize_of_settled hsettled

/-- A second run of the pass finds nothing to fuse, and changes nothing, exactly when the first uncovers
no border.  It never finds a border image or radii, and a third run finds nothing. -/
theorem optimize_optimize_iff (nodes : List Node) :
    (optimize (optimize nodes) = optimize nodes ↔ ∀ body ∈ Node.bodies nodes, ¬ Uncovers body) ∧
      (report (optimize nodes) = {} ↔ ∀ body ∈ Node.bodies nodes, ¬ Uncovers body) ∧
      ((report (optimize nodes)).images = 0 ∧ (report (optimize nodes)).radii = 0) ∧
      optimize (optimize (optimize nodes)) = optimize (optimize nodes) ∧
      report (optimize (optimize nodes)) = {} :=
  ⟨optimize_optimize_eq_iff, report_optimize_eq_empty_iff, report_optimize nodes,
    optimize_thrice nodes⟩

/-- A slice behind the longhands of the border, and a source before them. -/
def sliced : List Node :=
  [.declaration ⟨"border-image-source", "none", false⟩,
    .declaration ⟨"border-width", "1px", false⟩, .declaration ⟨"border-style", "solid", false⟩,
    .declaration ⟨"border-color", "red", false⟩, .declaration ⟨"border-image-slice", "1", false⟩]

/-- What `sliced` becomes in the first run. -/
def imaged : List Node :=
  [.declaration ⟨"border-width", "1px", false⟩, .declaration ⟨"border-style", "solid", false⟩,
    .declaration ⟨"border-color", "red", false⟩, .declaration ⟨"border-image", "none 1", false⟩]

theorem fuse_image_sliced : (image.fuse sliced).1 = imaged := by
  simp only [Family.fuse, Family.fuse?, Family.anchorIn?, Slots.sharedImportance?,
    Slots.hasInterference, Slots.indices_eq_insertionSort]
  decide +kernel

theorem fuse?_side_imaged : (side "").fuse? imaged ≠ none := by
  simp only [Family.fuse?, Family.anchorIn?, Slots.sharedImportance?, Slots.hasInterference,
    Slots.indices_eq_insertionSort]
  decide +kernel

/-- A border is uncovered when the slice of its image stands behind it and the source before it. -/
theorem uncovers_sliced : Uncovers sliced := by
  have hfirst : Body.concerning (side "").interferes sliced =
      ⟨"border-image-source", "none", false⟩ :: (Body.declarations sliced).tail := by decide
  have hnone : (side "").fuse? sliced = none :=
    Family.fuse?_eq_none_of_concerning (nodup_side "") within_interferes.longhands hfirst (by decide)
      (by decide)
  refine uncovers_of_fuse? hnone ?_
  rw [fuse_image_sliced]
  exact fuse?_side_imaged

end Border

end Stylesheet
