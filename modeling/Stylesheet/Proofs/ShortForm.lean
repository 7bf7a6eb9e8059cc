import Stylesheet.Proofs.Shortening

/-!
# Short forms of background values

A background value is brought into its short form layer by layer: a layer is split, its components are
shortened, and it is put together again.  A layer of `background` goes through this twice, for the repeat
keywords and for those of positions.

A value that was shortened is laid out (`laidOut_mapLayers`), whether or not it is in short form.
Whether shortening changes a value can be seen from its components (`normalizeValue_eq_self_iff`).
-/

namespace Stylesheet

open Stylesheet.Value

namespace Background

/-! ## Layers -/

/-- A layer with its components rewritten. -/
def rewriteLayer (rewrite : List String → List String) (layer : String) : String :=
  Text.join " " (rewrite (components layer))

/-- The components of a layer can be put together to a layer. -/
structure Words (ws : List String) : Prop where
  /-- They can be put together. -/
  line : Level.component.Line (ws.map String.toList)
  /-- There are some. -/
  ne_nil : ws ≠ []
  /-- They have no commas. -/
  whole : ∀ w ∈ ws, Whole Level.layer.isSeparator {} w.toList

theorem words_components {layer : String} (h : Level.layer.IsPiece layer.toList) :
    Words (components layer) := by
  refine ⟨?_, ?_, fun w hw => ?_⟩
  · rw [map_toList_components]
    exact Level.component.line_split layer.toList
  · obtain ⟨c, cs, hlayer, hspace, -⟩ := h.exists_cons
    have hc : c ∈ layer.toList := by simp [hlayer]
    intro hnil
    refine splitTopLevel_of_mem (s := {}) hc hspace ?_
    have hsplit := map_toList_components layer
    rw [hnil] at hsplit
    exact hsplit.symm
  · exact Level.whole_of_mem_split h.whole _ (toList_mem_split_of_mem_components hw)

theorem terms_words : ∀ t ∈ terms, Level.component.IsPiece t.toList ∧
    Whole Level.layer.isSeparator {} t.toList ∧ ({} : Nesting).along t.toList = {} := by
  have hall : terms.all (fun t => decide (Level.component.IsPiece t.toList ∧
      Whole Level.layer.isSeparator {} t.toList ∧ ({} : Nesting).along t.toList = {})) = true := by
    decide
  intro t ht
  exact of_decide_eq_true (List.all_eq_true.1 hall t ht)

theorem terms_closed : ∀ t ∈ terms, ({} : Nesting).along t.toList = {} :=
  fun t ht => (terms_words t ht).2.2

theorem terms_rest : ∀ t ∈ terms, (({} : Nesting).along t.toList).Rests := by
  intro t ht
  rw [terms_closed t ht]
  exact Nesting.rests_top

theorem Shortens.line {ws ws' : List String} (h : Shortens ws ws')
    (hws : Level.component.Line (ws.map String.toList)) :
    Level.component.Line (ws'.map String.toList) := by
  induction h with
  | nil => exact hws
  | @keep ws ws' w hrest ih =>
      obtain ⟨hw, hrests, hws⟩ := Level.line_cons_iff.1 hws
      refine Level.line_cons_iff.2 ⟨hw, fun hne => hrests fun hnil => hne ?_, ih hws⟩
      rw [List.map_eq_nil_iff] at hnil ⊢
      exact hrest.eq_nil_iff.2 hnil
  | @replace run new ws ws' _ hnew _ _ ih =>
      rw [List.map_append, Level.line_append_iff] at hws ⊢
      have hrests : ∀ p ∈ new.map String.toList, (({} : Nesting).along p).Rests :=
        List.forall_mem_map.2 fun t ht => terms_rest t (hnew t ht)
      exact ⟨⟨List.forall_mem_map.2 fun t ht => (terms_words t (hnew t ht)).1,
        List.pairwise_of_forall_mem_list fun p hp _ _ => hrests p hp⟩, ih hws.2.1, fun _ => hrests⟩

theorem Words.shortens {ws ws' : List String} (hws : Words ws) (h : Shortens ws ws') : Words ws' :=
  ⟨h.line hws.line, fun hnil => hws.ne_nil (h.eq_nil_iff.1 hnil),
    h.forall_mem (fun t ht => (terms_words t ht).2.1) hws.whole⟩

theorem Words.isPiece {ws : List String} (h : Words ws) :
    Level.layer.IsPiece (Text.join " " ws).toList := by
  rw [toList_join_components]
  refine h.line.isPiece_layer (by simpa using h.ne_nil) ?_
  exact List.forall_mem_map.2 h.whole

/-- What is open behind a layer is open behind its last component. -/
theorem Words.along {ws : List String} (h : Words ws) :
    ∃ last ∈ ws.getLast?, ({} : Nesting).along (Text.join " " ws).toList =
      ({} : Nesting).along last.toList := by
  obtain ⟨init, last, rfl⟩ := (List.eq_nil_or_concat' ws).resolve_left h.ne_nil
  have hline := h.line
  rw [List.map_append] at hline
  refine ⟨last, by simp, ?_⟩
  rw [toList_join_components, List.map_append]
  exact hline.along_join

/-- Components are found again if only the last of them leaves anything open. -/
theorem components_join_of_closed {ws : List String} (h : Words ws)
    (hclosed : ws.Pairwise fun w _ => Closed w) : components (Text.join " " ws) = ws := by
  refine List.map_injective_iff.2 (fun _ _ => String.toList_inj.1) ?_
  rw [map_toList_components, toList_join_components]
  exact h.line.split_join (List.pairwise_map.2 hclosed)

/-- A layer that is written in components is what putting them together makes. -/
theorem join_components_of_spaced {layer : String} (h : Level.Spaced layer.toList) :
    Text.join " " (components layer) = layer := by
  obtain ⟨ps, hline, -, hlayer⟩ := h
  rw [← String.toList_inj, toList_join_components, map_toList_components, hlayer]
  exact hline.laid.join_split

/-- What a layer keeps when it is rewritten. -/
structure Rewritten (layer new : String) : Prop where
  /-- It is still a layer. -/
  isPiece : Level.layer.IsPiece new.toList
  /-- Nothing is opened in it. -/
  rests : (({} : Nesting).along layer.toList).Rests → (({} : Nesting).along new.toList).Rests
  /-- If it is written in components and all is closed in it, then it still is. -/
  closed : Level.Spaced layer.toList ∧ Closed layer → Level.Spaced new.toList ∧ Closed new
  /-- It gets no more letters. -/
  letters_le : letters new.toList ≤ letters layer.toList

theorem Rewritten.refl {layer : String} (h : Level.layer.IsPiece layer.toList) :
    Rewritten layer layer := ⟨h, id, id, Nat.le_refl _⟩

theorem Rewritten.trans {a b c : String} (hab : Rewritten a b) (hbc : Rewritten b c) :
    Rewritten a c :=
  ⟨hbc.isPiece, fun h => hbc.rests (hab.rests h), fun h => hbc.closed (hab.closed h),
    hbc.letters_le.trans hab.letters_le⟩

theorem letters_rewriteLayer (rewrite : List String → List String) (layer : String) :
    letters (rewriteLayer rewrite layer).toList = lettersIn (rewrite (components layer)) :=
  letters_join_components _

section Rewrite

variable {rewrite : List String → List String} (hrewrite : ∀ ws, Shortens ws (rewrite ws))

include hrewrite

theorem spaced_rewriteLayer {layer : String} (h : Level.layer.IsPiece layer.toList) :
    Level.Spaced (rewriteLayer rewrite layer).toList := by
  have hwords := (words_components h).shortens (hrewrite _)
  exact ⟨_, hwords.line, by simpa using hwords.ne_nil, toList_join_components _⟩

theorem rewritten_rewriteLayer {layer : String} (h : Level.layer.IsPiece layer.toList) :
    Rewritten layer (rewriteLayer rewrite layer) := by
  have hshortens := hrewrite (components layer)
  have hcomponents := words_components h
  have hwords := hcomponents.shortens hshortens
  obtain ⟨last, hlast, halong⟩ := hwords.along
  refine ⟨hwords.isPiece, fun hrests => ?_, fun ⟨hspaced, hclosed⟩ =>
    ⟨spaced_rewriteLayer hrewrite h, ?_⟩, ?_⟩
  · have hall : ∀ w ∈ components layer, (({} : Nesting).along w.toList).Rests := fun w hw =>
      Level.rests_of_mem_split hrests _ (toList_mem_split_of_mem_components hw)
    rw [rewriteLayer, halong]
    exact hshortens.forall_mem terms_rest hall last (List.mem_of_getLast? hlast)
  · obtain ⟨last', hlast', halong'⟩ := hcomponents.along
    rw [join_components_of_spaced hspaced] at halong'
    rw [Closed, rewriteLayer, halong]
    refine hshortens.forall_mem_getLast? terms_closed (fun w hw => ?_) last hlast
    obtain rfl : last' = w := Option.some.inj (hlast'.symm.trans hw)
    rw [← halong']
    exact hclosed
  · rw [letters_rewriteLayer, ← lettersIn_components]
    exact hshortens.letters_le

/-- A layer that keeps its letters keeps its components. -/
theorem rewrite_eq_of_letters {layer : String}
    (h : letters (rewriteLayer rewrite layer).toList = letters layer.toList) :
    rewrite (components layer) = components layer := by
  refine (hrewrite _).eq_of_letters ?_
  rw [← letters_rewriteLayer, h, lettersIn_components]

end Rewrite

/-- How the layers of a property are rewritten, one rewriting after the other. -/
def rewrites (property : String) : List (List String → List String) :=
  match property with
  | "background" => [collapsePairs, normalizeFrom none []]
  | "background-repeat" => [collapsePairs]
  | "background-position" => [normalizeFrom none []]
  | _ => []

theorem rewrites_ne_nil_iff {property : String} :
    rewrites property ≠ [] ↔
      property ∈ ["background", "background-repeat", "background-position"] := by
  unfold rewrites
  split
  · exact iff_of_true (by simp) (by simp)
  · exact iff_of_true (by simp) (by simp)
  · exact iff_of_true (by simp) (by simp)
  · next hbackground hrepeat hposition =>
      exact iff_of_false (by simp) (by simpa using ⟨hbackground, hrepeat, hposition⟩)

/-- A layer with its components rewritten several times. -/
def rewriteLayers (rewrites : List (List String → List String)) (layer : String) : String :=
  rewrites.foldl (fun layer rewrite => rewriteLayer rewrite layer) layer

theorem shortens_of_mem_rewrites (property : String) :
    ∀ rewrite ∈ rewrites property, ∀ ws, Shortens ws (rewrite ws) := by
  have hboth : ∀ rewrite ∈ [collapsePairs, normalizeFrom none []], ∀ ws, Shortens ws (rewrite ws) := by
    intro rewrite hmem ws
    rcases List.mem_pair.1 hmem with rfl | rfl
    · exact shortens_collapsePairs ws
    · exact shortens_normalizeFrom none [] ws
  intro rewrite hmem
  refine hboth rewrite ?_
  unfold rewrites at hmem
  split at hmem
  · exact hmem
  · exact List.mem_cons.2 (.inl (List.mem_singleton.1 hmem))
  · exact List.mem_cons_of_mem _ hmem
  · cases hmem

theorem rewriteLayers_eq (rewrites : List (List String → List String)) :
    rewriteLayers rewrites =
      fun layer => rewrites.foldl (fun layer rewrite => rewriteLayer rewrite layer) layer := rfl

/-- The short form of a value is made by rewriting its layers. -/
theorem normalizeValue_eq {property : String} (h : rewrites property ≠ []) (value : String) :
    normalizeValue property value = mapLayers (rewriteLayers (rewrites property)) value := by
  have hbackground : rewrites "background" = [collapsePairs, normalizeFrom none []] := rfl
  have hrepeat : rewrites "background-repeat" = [collapsePairs] := rfl
  have hposition : rewrites "background-position" = [normalizeFrom none []] := rfl
  have hcollapse : collapseRepeat = rewriteLayer collapsePairs := rfl
  have hnormalize : normalizeLayer = rewriteLayer (normalizeFrom none []) := rfl
  have hmem := rewrites_ne_nil_iff.1 h
  unfold normalizeValue
  split
  · simp only [hbackground, hcollapse, hnormalize, rewriteLayers_eq, List.foldl_cons, List.foldl_nil]
  · simp only [hrepeat, hcollapse, rewriteLayers_eq, List.foldl_cons, List.foldl_nil]
  · simp only [hposition, normalizePosition, hnormalize, rewriteLayers_eq, List.foldl_cons,
      List.foldl_nil]
  · next hbackground hrepeat hposition =>
      exact absurd hmem (by simpa using ⟨hbackground, hrepeat, hposition⟩)

/-- Values of other properties have no short form. -/
theorem normalizeValue_of_nil {property : String} (h : rewrites property = []) (value : String) :
    normalizeValue property value = value := by
  have hnot : property ∉ ["background", "background-repeat", "background-position"] :=
    fun hmem => rewrites_ne_nil_iff.2 hmem h
  unfold normalizeValue
  split
  · exact absurd (by simp) hnot
  · exact absurd (by simp) hnot
  · exact absurd (by simp) hnot
  · rfl

theorem rewritten_rewriteLayers {rewrites : List (List String → List String)}
    (hrewrites : ∀ rewrite ∈ rewrites, ∀ ws, Shortens ws (rewrite ws)) {layer : String}
    (h : Level.layer.IsPiece layer.toList) : Rewritten layer (rewriteLayers rewrites layer) := by
  induction rewrites generalizing layer with
  | nil => exact .refl h
  | cons rewrite rewrites ih =>
      obtain ⟨hfirst, hothers⟩ := List.forall_mem_cons.1 hrewrites
      have hrewritten := rewritten_rewriteLayer hfirst h
      exact hrewritten.trans (ih hothers hrewritten.isPiece)

/-- A layer that was rewritten is written in components. -/
theorem spaced_rewriteLayers {rewrites : List (List String → List String)}
    (hrewrites : ∀ rewrite ∈ rewrites, ∀ ws, Shortens ws (rewrite ws)) (hne : rewrites ≠ [])
    {layer : String} (h : Level.layer.IsPiece layer.toList) :
    Level.Spaced (rewriteLayers rewrites layer).toList := by
  induction rewrites generalizing layer with
  | nil => exact absurd rfl hne
  | cons rewrite rewrites ih =>
      obtain ⟨hfirst, hothers⟩ := List.forall_mem_cons.1 hrewrites
      have hspaced := spaced_rewriteLayer hfirst h
      have hpiece := (rewritten_rewriteLayer hfirst h).isPiece
      by_cases hnil : rewrites = []
      · rw [hnil]
        exact hspaced
      · exact ih hothers hnil hpiece

/-- A layer that is written in components and keeps its letters keeps its components all the time. -/
theorem rewrite_eq_of_letters_rewriteLayers {rewrites : List (List String → List String)}
    (hrewrites : ∀ rewrite ∈ rewrites, ∀ ws, Shortens ws (rewrite ws)) {layer : String}
    (h : Level.layer.IsPiece layer.toList)
    (hspaced : Text.join " " (components layer) = layer)
    (hletters : letters (rewriteLayers rewrites layer).toList = letters layer.toList) :
    ∀ rewrite ∈ rewrites, rewrite (components layer) = components layer := by
  induction rewrites with
  | nil => exact fun _ hmem => absurd hmem List.not_mem_nil
  | cons rewrite rewrites ih =>
      obtain ⟨hfirst, hothers⟩ := List.forall_mem_cons.1 hrewrites
      have hrewritten := rewritten_rewriteLayer hfirst h
      have hle := (rewritten_rewriteLayers hothers hrewritten.isPiece).letters_le
      have hle' := hrewritten.letters_le
      have hcons : rewriteLayers (rewrite :: rewrites) layer =
          rewriteLayers rewrites (rewriteLayer rewrite layer) := rfl
      rw [hcons] at hletters
      have hsame : rewrite (components layer) = components layer :=
        rewrite_eq_of_letters hfirst (by omega)
      have hlayer : rewriteLayer rewrite layer = layer := by rw [rewriteLayer, hsame, hspaced]
      rw [hlayer] at hletters
      exact List.forall_mem_cons.2 ⟨hsame, ih hothers hletters⟩

/-! ## Values -/

/-- A value is what putting together its layers and their components makes, and only the last layer
leaves anything open. -/
structure LaidOut (value : String) : Prop where
  /-- Its layers make it. -/
  join_layers : Text.join ", " (layers value) = value
  /-- Their components make them. -/
  spaced : ∀ layer ∈ layers value, Level.Spaced layer.toList
  /-- All is closed where another layer follows. -/
  closed : (layers value).Pairwise fun layer _ => Closed layer

theorem isPiece_of_mem_layers {value layer : String} (h : layer ∈ layers value) :
    Level.layer.IsPiece layer.toList :=
  (Level.layer.line_split value.toList).isPiece _ (toList_mem_split_of_mem_layers h)

section Value

variable {rewrites : List (List String → List String)}
  (hrewrites : ∀ rewrite ∈ rewrites, ∀ ws, Shortens ws (rewrite ws))

include hrewrites

theorem line_map_rewriteLayers (value : String) :
    Level.layer.Line (((layers value).map (rewriteLayers rewrites)).map String.toList) := by
  have hline := Level.layer.line_split value.toList
  rw [← map_toList_layers] at hline
  constructor
  · rw [List.map_map, List.forall_mem_map]
    intro layer hlayer
    exact (rewritten_rewriteLayers hrewrites (isPiece_of_mem_layers hlayer)).isPiece
  · have hrests := hline.rests
    rw [List.pairwise_map] at hrests
    rw [List.map_map, List.pairwise_map]
    refine hrests.imp_of_mem ?_
    intro layer _ hlayer _ hrest
    exact (rewritten_rewriteLayers hrewrites (isPiece_of_mem_layers hlayer)).rests hrest

/-- A value with its layers rewritten is laid out. -/
theorem laidOut_mapLayers (hne : rewrites ≠ []) (value : String) :
    LaidOut (mapLayers (rewriteLayers rewrites) value) := by
  have hline := line_map_rewriteLayers hrewrites value
  have htext := toList_join_layers ((layers value).map (rewriteLayers rewrites))
  obtain ⟨hjoin, hclosed⟩ := hline.laid
  rw [← htext] at hjoin hclosed
  rw [← map_toList_layers] at hjoin hclosed
  refine ⟨?_, fun layer hlayer => ?_, List.pairwise_map.1 hclosed⟩
  · rw [← String.toList_inj, toList_join_layers]
    exact hjoin
  · refine hline.forall_mem_split (motive := Level.Spaced) (fun p q _ => Level.Spaced.merge) ?_ _ ?_
    · rw [List.map_map, List.forall_mem_map]
      intro layer hlayer
      exact spaced_rewriteLayers hrewrites hne (isPiece_of_mem_layers hlayer)
    · rw [← htext, ← map_toList_layers]
      exact List.mem_map_of_mem hlayer

/-- A laid out value with several layers still has several when its layers are rewritten. -/
theorem isMultiLayer_mapLayers {value : String} (hlaid : LaidOut value)
    (h : isMultiLayer value = true) :
    isMultiLayer (mapLayers (rewriteLayers rewrites) value) = true := by
  have hline := line_map_rewriteLayers hrewrites value
  rw [isMultiLayer, decide_eq_true_eq] at h
  obtain ⟨first, second, rest, hlayers⟩ : ∃ first second rest, layers value = first :: second :: rest := by
    cases hlayers : layers value with
    | nil => rw [hlayers] at h; exact absurd h (by decide)
    | cons first others =>
        cases others with
        | nil => rw [hlayers] at h; exact absurd h (by simp)
        | cons second rest => exact ⟨first, second, rest, rfl⟩
  have hmem : first ∈ layers value := by simp [hlayers]
  have hclosed := hlaid.closed
  rw [hlayers] at hclosed
  have hfirst := (List.pairwise_cons.1 hclosed).1 second List.mem_cons_self
  have hrewritten := rewritten_rewriteLayers hrewrites (isPiece_of_mem_layers hmem)
  have hstill := (hrewritten.closed ⟨hlaid.spaced first hmem, hfirst⟩).2
  rw [hlayers, List.map_cons, List.map_cons] at hline
  obtain ⟨hpiece, -, hothers⟩ := Level.line_cons_iff.1 hline
  have hsplit : (layers (mapLayers (rewriteLayers rewrites) value)).map String.toList =
      (rewriteLayers rewrites first).toList ::
        Level.layer.split (Level.layer.join
          (((second :: rest).map (rewriteLayers rewrites)).map String.toList)) := by
    rw [map_toList_layers, mapLayers, toList_join_layers, hlayers, List.map_cons, List.map_cons,
      Level.join_cons (by simp)]
    exact hpiece.split_glue hstill _
  have hmore := hothers.laid.join_split
  have hsome : Level.layer.split (Level.layer.join
      (((second :: rest).map (rewriteLayers rewrites)).map String.toList)) ≠ [] := by
    intro hnil
    rw [hnil] at hmore
    obtain ⟨c, cs, hjoin, -⟩ := hothers.join_ne_nil (by simp)
    rw [hjoin] at hmore
    cases hmore
  have hlength := congrArg List.length hsplit
  rw [List.length_map, List.length_cons] at hlength
  rw [isMultiLayer, decide_eq_true_eq, hlength]
  exact Nat.succ_lt_succ (List.length_pos_iff.2 hsome)

end Value

/-- A value in short form, if the property is one of those with a short form. -/
structure IsShort (property value : String) : Prop where
  /-- Its layers make it. -/
  join_layers : Text.join ", " (layers value) = value
  /-- Their components make them. -/
  join_components : ∀ layer ∈ layers value, Text.join " " (components layer) = layer
  /-- No repeat keywords make a pair. -/
  pairs : property ≠ "background-position" → ∀ layer ∈ layers value,
    (components layer).IsChain fun first second => repeatPair? first second = none
  /-- No position keywords are written as percentages. -/
  positions : property ≠ "background-repeat" → ∀ layer ∈ layers value,
    RunsStand none (components layer)

/-- What is rewritten in the layers of a property. -/
theorem forall_mem_rewrites_iff {property : String} (h : rewrites property ≠ []) {ws : List String} :
    (∀ rewrite ∈ rewrites property, rewrite ws = ws) ↔
      (property ≠ "background-position" →
        ws.IsChain fun first second => repeatPair? first second = none) ∧
        (property ≠ "background-repeat" → RunsStand none ws) := by
  rw [← collapsePairs_eq_self_iff, ← normalizeFrom_eq_self_iff]
  revert h
  unfold rewrites
  split
  · simp
  · simp
  · simp
  · exact fun h => absurd rfl h

/-- Bringing a value into its short form changes nothing exactly when it is in short form. -/
theorem normalizeValue_eq_self_iff {property : String} (h : rewrites property ≠ []) {value : String} :
    normalizeValue property value = value ↔ IsShort property value := by
  have hrewrites := shortens_of_mem_rewrites property
  rw [normalizeValue_eq h]
  constructor
  · intro hsame
    obtain ⟨hlayers, hspaced, -⟩ := laidOut_mapLayers hrewrites h value
    rw [hsame] at hlayers hspaced
    have hjoin : ∀ layer ∈ layers value, Text.join " " (components layer) = layer :=
      fun layer hlayer => join_components_of_spaced (hspaced layer hlayer)
    -- The value has kept its letters, so each layer has.
    have hkeep : ∀ layer ∈ layers value,
        letters (rewriteLayers (rewrites property) layer).toList = letters layer.toList := by
      refine letters_eq_of_lettersIn_map (fun layer hlayer =>
        (rewritten_rewriteLayers hrewrites (isPiece_of_mem_layers hlayer)).letters_le) ?_
      rw [← letters_join_layers, ← mapLayers, hsame, lettersIn_layers]
    have hstay : ∀ layer ∈ layers value, ∀ rewrite ∈ rewrites property,
        rewrite (components layer) = components layer := fun layer hlayer =>
      rewrite_eq_of_letters_rewriteLayers hrewrites (isPiece_of_mem_layers hlayer)
        (hjoin layer hlayer) (hkeep layer hlayer)
    exact ⟨hlayers, hjoin,
      fun hproperty layer hlayer => ((forall_mem_rewrites_iff h).1 (hstay layer hlayer)).1 hproperty,
      fun hproperty layer hlayer => ((forall_mem_rewrites_iff h).1 (hstay layer hlayer)).2 hproperty⟩
  · rintro ⟨hlayers, hjoin, hpairs, hpositions⟩
    have hlayer : ∀ layer ∈ layers value, rewriteLayers (rewrites property) layer = layer := by
      intro layer hlayer
      have hstay := (forall_mem_rewrites_iff h).2
        ⟨fun hproperty => hpairs hproperty layer hlayer,
          fun hproperty => hpositions hproperty layer hlayer⟩
      refine List.foldlRecOn (motive := fun new => new = layer) _ _ rfl ?_
      rintro new rfl rewrite hrewrite
      rw [rewriteLayer, hstay rewrite hrewrite, hjoin new hlayer]
    rw [mapLayers, List.map_congr_left hlayer, List.map_id', hlayers]

/-- A value that was shortened still has several layers when it is shortened again, if it has several. -/
theorem isMultiLayer_normalizeValue (property value : String)
    (h : isMultiLayer (normalizeValue property value) = true) :
    isMultiLayer (normalizeValue property (normalizeValue property value)) = true := by
  by_cases hnil : rewrites property = []
  · rwa [normalizeValue_of_nil hnil (normalizeValue property value)]
  · have hrewrites := shortens_of_mem_rewrites property
    rw [normalizeValue_eq hnil] at h
    rw [normalizeValue_eq hnil, normalizeValue_eq hnil]
    exact isMultiLayer_mapLayers hrewrites (laidOut_mapLayers hrewrites hnil value) h

/-! ## Values without backslashes -/

theorem terms_plain : ∀ t ∈ terms, '\\' ∉ t.toList := by
  have hall : terms.all (fun t => decide ('\\' ∉ t.toList)) = true := by decide
  intro t ht
  exact of_decide_eq_true (List.all_eq_true.1 hall t ht)

theorem plain_of_mem_components {layer w : String} (hplain : '\\' ∉ layer.toList)
    (hw : w ∈ components layer) : '\\' ∉ w.toList :=
  fun h => hplain (Level.mem_of_mem_split (toList_mem_split_of_mem_components hw) h)

theorem plain_of_mem_layers {value layer : String} (hplain : '\\' ∉ value.toList)
    (hlayer : layer ∈ layers value) : '\\' ∉ layer.toList :=
  fun h => hplain (Level.mem_of_mem_split (toList_mem_split_of_mem_layers hlayer) h)

theorem closed_map_of_plain {level : Level} {ps : List (List Char)} (h : level.Line ps)
    (hplain : ∀ p ∈ ps, '\\' ∉ p) : ps.Pairwise fun p _ => ({} : Nesting).along p = {} :=
  h.rests.imp_of_mem fun hp _ hrests => Level.closed_of_plain (hplain _ hp) hrests

/-- Components without backslashes are found again. -/
theorem components_join_of_plain {ws : List String} (h : Words ws)
    (hplain : ∀ w ∈ ws, '\\' ∉ w.toList) : components (Text.join " " ws) = ws :=
  components_join_of_closed h
    (List.pairwise_map.1 (closed_map_of_plain h.line (List.forall_mem_map.2 hplain)))

section Plain

variable {rewrite : List String → List String} (hrewrite : ∀ ws, Shortens ws (rewrite ws))
  {layer : String} (h : Level.layer.IsPiece layer.toList) (hplain : '\\' ∉ layer.toList)

include hrewrite hplain

theorem plain_rewrite : ∀ w ∈ rewrite (components layer), '\\' ∉ w.toList :=
  (hrewrite _).forall_mem terms_plain fun _ hw => plain_of_mem_components hplain hw

theorem plain_rewriteLayer : '\\' ∉ (rewriteLayer rewrite layer).toList := by
  rw [rewriteLayer, toList_join_components]
  intro hmem
  rcases Level.mem_of_mem_join hmem with hglue | ⟨p, hp, hmem⟩
  · exact absurd hglue (by decide)
  · obtain ⟨w, hw, rfl⟩ := List.mem_map.1 hp
    exact plain_rewrite hrewrite hplain w hw hmem

include h

/-- A layer that was rewritten has the rewritten components. -/
theorem components_rewriteLayer :
    components (rewriteLayer rewrite layer) = rewrite (components layer) :=
  components_join_of_plain ((words_components h).shortens (hrewrite _))
    (plain_rewrite hrewrite hplain)

end Plain

theorem plain_rewriteLayers {rewrites : List (List String → List String)}
    (hrewrites : ∀ rewrite ∈ rewrites, ∀ ws, Shortens ws (rewrite ws)) {layer : String}
    (hplain : '\\' ∉ layer.toList) : '\\' ∉ (rewriteLayers rewrites layer).toList := by
  induction rewrites generalizing layer with
  | nil => exact hplain
  | cons rewrite rewrites ih =>
      obtain ⟨hfirst, hothers⟩ := List.forall_mem_cons.1 hrewrites
      exact ih hothers (plain_rewriteLayer hfirst hplain)

/-- A value without backslashes that was rewritten has the rewritten layers. -/
theorem layers_mapLayers {rewrites : List (List String → List String)}
    (hrewrites : ∀ rewrite ∈ rewrites, ∀ ws, Shortens ws (rewrite ws)) {value : String}
    (hplain : '\\' ∉ value.toList) :
    layers (mapLayers (rewriteLayers rewrites) value) =
      (layers value).map (rewriteLayers rewrites) := by
  have hline := line_map_rewriteLayers hrewrites value
  refine List.map_injective_iff.2 (fun _ _ => String.toList_inj.1) ?_
  rw [map_toList_layers, mapLayers, toList_join_layers]
  refine hline.split_join (closed_map_of_plain hline ?_)
  rw [List.map_map, List.forall_mem_map]
  intro layer hlayer
  exact plain_rewriteLayers hrewrites (plain_of_mem_layers hplain hlayer)

/-- Positions are rewritten at the end. -/
theorem rewrites_eq_concat {property : String} (h : rewrites property ≠ [])
    (hproperty : property ≠ "background-repeat") :
    ∃ init, rewrites property = init ++ [normalizeFrom none []] := by
  revert h
  unfold rewrites
  split
  · exact fun _ => ⟨[collapsePairs], rfl⟩
  · exact absurd rfl hproperty
  · exact fun _ => ⟨[], rfl⟩
  · exact fun h => absurd rfl h

/-- A value without backslashes that was shortened is in short form if no pair of repeat keywords is
left in it. -/
theorem isShort_normalizeValue_iff {property value : String} (h : rewrites property ≠ [])
    (hplain : '\\' ∉ value.toList) :
    IsShort property (normalizeValue property value) ↔
      (property ≠ "background-position" → ∀ layer ∈ layers (normalizeValue property value),
        (components layer).IsChain fun first second => repeatPair? first second = none) := by
  refine ⟨IsShort.pairs, fun hpairs => ?_⟩
  have hrewrites := shortens_of_mem_rewrites property
  obtain ⟨hlayers, hspaced, -⟩ := laidOut_mapLayers hrewrites h value
  rw [← normalizeValue_eq h] at hlayers hspaced
  refine ⟨hlayers, fun layer hlayer => join_components_of_spaced (hspaced layer hlayer), hpairs, ?_⟩
  intro hproperty new hnew
  obtain ⟨init, hinit⟩ := rewrites_eq_concat h hproperty
  rw [normalizeValue_eq h, layers_mapLayers hrewrites hplain] at hnew
  obtain ⟨layer, hlayer, rfl⟩ := List.mem_map.1 hnew
  rw [hinit] at hrewrites ⊢
  obtain ⟨hfirst, hlast⟩ := List.forall_mem_append.1 hrewrites
  have hbefore := rewritten_rewriteLayers hfirst (isPiece_of_mem_layers hlayer)
  have hconcat : rewriteLayers (init ++ [normalizeFrom none []]) layer =
      rewriteLayer (normalizeFrom none []) (rewriteLayers init layer) := by
    rw [rewriteLayers, List.foldl_append]
    rfl
  rw [hconcat, components_rewriteLayer (List.forall_mem_singleton.1 hlast) hbefore.isPiece
    (plain_rewriteLayers hfirst (plain_of_mem_layers hplain hlayer)), ← normalizeFrom_eq_self_iff]
  exact normalizeFrom_normalizeFrom (by simp) _

end Background

end Stylesheet
