import Stylesheet.Proofs.DeclarationText
import Stylesheet.Proofs.ValueLayout
import Stylesheet.Shorthand.Background

/-!
# Shortening the components of a layer

Pairs of repeat keywords become one word, and position keywords become percentages.  Both replace some
runs of components, and what comes in has fewer letters than what goes (`Shortens`).  So components that
keep their letters stay as they are (`Shortens.eq_of_letters`).

When that is can be seen from the components: when no two repeat keywords make a pair
(`collapsePairs_eq_self_iff`), and when every run of position keywords stands
(`normalizeFrom_eq_self_iff`).  Once position keywords have become percentages, all runs stand
(`normalizeFrom_normalizeFrom`).  Pairs may be left, since a pair can come out of a pair:
`repeat repeat no-repeat` becomes `repeat no-repeat`.
-/

namespace Stylesheet

open Stylesheet.Text (trim isSpace Spaces)
open Stylesheet.Value

namespace Value

/-! ## Letters -/

/-- How many letters a text has. -/
def letters (cs : List Char) : Nat := cs.countP Char.isAlpha

theorem letters_append (a b : List Char) : letters (a ++ b) = letters a + letters b :=
  List.countP_append

theorem letters_of_spaces {cs : List Char} (h : Spaces cs) : letters cs = 0 := by
  rw [letters, List.countP_eq_zero]
  intro c hc halpha
  have hspace := Text.isSpace_of_isAlpha c halpha
  rw [h c hc] at hspace
  cases hspace

theorem letters_trim (cs : List Char) : letters (trim cs) = letters cs := by
  obtain ⟨a, b, htext, ha, hb, -⟩ := Text.exists_trim cs
  calc letters (trim cs) = letters a + letters (trim cs) + letters b := by
        rw [letters_of_spaces ha, letters_of_spaces hb, Nat.zero_add, Nat.add_zero]
    _ = letters cs := by rw [← letters_append, ← letters_append, ← htext]

theorem letters_lower (cs : List Char) : letters (Text.lower cs) = letters cs := by
  rw [letters, Text.lower, List.countP_map, letters]
  refine List.countP_congr fun c _ => ?_
  rw [Function.comp_apply, Char.isAlpha_toLower_eq_isAlpha]

/-- How many letters some texts have. -/
def lettersIn (texts : List String) : Nat := (texts.map fun text => letters text.toList).sum

theorem lettersIn_append (a b : List String) : lettersIn (a ++ b) = lettersIn a + lettersIn b := by
  simp [lettersIn]

theorem lettersIn_cons (text : String) (texts : List String) :
    lettersIn (text :: texts) = letters text.toList + lettersIn texts := rfl

theorem letters_of_mem {text : String} {texts : List String} (h : text ∈ texts)
    (hnone : lettersIn texts = 0) : letters text.toList = 0 :=
  List.sum_eq_zero_iff_forall_eq_nat.1 hnone _ (List.mem_map_of_mem h)

/-- Where no text gets more letters and there are as many as before, each text keeps its letters. -/
theorem letters_eq_of_lettersIn_map {f : String → String} {texts : List String}
    (hle : ∀ text ∈ texts, letters (f text).toList ≤ letters text.toList)
    (hsame : lettersIn (texts.map f) = lettersIn texts) :
    ∀ text ∈ texts, letters (f text).toList = letters text.toList := by
  induction texts with
  | nil => exact fun _ hmem => absurd hmem List.not_mem_nil
  | cons text texts ih =>
      obtain ⟨hfirst, hothers⟩ := List.forall_mem_cons.1 hle
      have hrest : lettersIn (texts.map f) ≤ lettersIn texts := by
        rw [lettersIn, List.map_map, lettersIn]
        exact List.sum_le_sum hothers
      rw [List.map_cons, lettersIn_cons, lettersIn_cons] at hsame
      exact List.forall_mem_cons.2 ⟨by omega, ih hothers (by omega)⟩

theorem lettersIn_eq (texts : List String) :
    lettersIn texts = ((texts.map String.toList).map letters).sum := by
  rw [List.map_map]
  rfl

namespace Level

variable {level : Level} (hletter : ∀ c, level.isSeparator c = true → c.isAlpha = false)

include hletter

/-- Splitting loses no letters. -/
theorem letters_split (cs : List Char) : ((level.split cs).map letters).sum = letters cs := by
  have hone : ∀ cs, Whole level.isSeparator {} cs →
      ((level.split cs).map letters).sum = letters cs := by
    intro cs hwhole
    rw [split_of_whole hwhole, ← letters_trim cs]
    split
    · next hnil => rw [hnil]; rfl
    · exact List.sum_singleton
  induction cs using level.induction_on with
  | whole cs hwhole => exact hone cs hwhole
  | cut a c b hwhole halong hc ih =>
      have hseparator : letters [c] = 0 := by simp [letters, hletter c hc]
      have hcons : letters (a ++ c :: b) = letters a + (letters [c] + letters b) := by
        rw [← List.singleton_append, letters_append, letters_append]
      rw [split_append halong hc, List.map_append, List.sum_append, hone a hwhole, ih, hcons,
        hseparator, Nat.zero_add]

/-- Putting together adds no letters. -/
theorem letters_join (ps : List (List Char)) : letters (level.join ps) = (ps.map letters).sum := by
  have hglue : letters level.glue = 0 := by
    have hseparator := hletter level.separator level.isSeparator_separator
    have hgap : letters level.gap = 0 := letters_of_spaces level.spaces_gap
    rw [letters] at hgap
    rw [letters, glue, List.countP_cons_of_neg (by simp [hseparator]), hgap]
  induction ps with
  | nil => rfl
  | cons p ps ih =>
      cases ps with
      | nil => simp [join]
      | cons q ps =>
          rw [join_cons (by simp), letters_append, letters_append, hglue, ih, Nat.zero_add]
          rfl

end Level

theorem letter_component (c : Char) (h : Level.component.isSeparator c = true) :
    c.isAlpha = false := by
  cases halpha : c.isAlpha with
  | false => rfl
  | true =>
      have hspace : isSpace c = true := h
      rw [Text.isSpace_of_isAlpha c halpha] at hspace
      cases hspace

theorem letter_layer (c : Char) (h : Level.layer.isSeparator c = true) : c.isAlpha = false := by
  rw [beq_iff_eq.1 h]
  rfl

theorem lettersIn_components (value : String) : lettersIn (components value) = letters value.toList := by
  rw [lettersIn_eq, map_toList_components, Level.letters_split letter_component]

theorem lettersIn_layers (value : String) : lettersIn (layers value) = letters value.toList := by
  rw [lettersIn_eq, map_toList_layers, Level.letters_split letter_layer]

theorem letters_join_components (texts : List String) :
    letters (Text.join " " texts).toList = lettersIn texts := by
  rw [toList_join_components, Level.letters_join letter_component, lettersIn_eq]

theorem letters_join_layers (texts : List String) :
    letters (Text.join ", " texts).toList = lettersIn texts := by
  rw [toList_join_layers, Level.letters_join letter_layer, lettersIn_eq]

end Value

namespace Background

/-! ## Replacing runs of components -/

/-- What is written in the place of keywords. -/
def terms : List String :=
  ["repeat", "no-repeat", "repeat-x", "repeat-y", "0%", "50%", "100%"]

/-- Some runs of components are replaced, each by terms with fewer letters. -/
inductive Shortens : List String → List String → Prop where
  /-- Nothing is left. -/
  | nil : Shortens [] []
  /-- A component is kept. -/
  | keep {ws ws' : List String} (w : String) : Shortens ws ws' → Shortens (w :: ws) (w :: ws')
  /-- A run is replaced. -/
  | replace {run new ws ws' : List String} : new ≠ [] → (∀ t ∈ new, t ∈ terms) →
      lettersIn new < lettersIn run → Shortens ws ws' → Shortens (run ++ ws) (new ++ ws')

namespace Shortens

theorem refl (ws : List String) : Shortens ws ws := by
  induction ws with
  | nil => exact .nil
  | cons w ws ih => exact .keep w ih

theorem keeps {ws ws' : List String} (run : List String) (h : Shortens ws ws') :
    Shortens (run ++ ws) (run ++ ws') := by
  induction run with
  | nil => exact h
  | cons w run ih => exact .keep w ih

variable {ws ws' : List String}

theorem letters_le (h : Shortens ws ws') : lettersIn ws' ≤ lettersIn ws := by
  induction h with
  | nil => exact Nat.le_refl _
  | keep w _ ih => exact Nat.add_le_add_left ih _
  | replace _ _ hless _ ih =>
      rw [lettersIn_append, lettersIn_append]
      omega

/-- Where no letter is lost, nothing is replaced. -/
theorem eq_of_letters (h : Shortens ws ws') (hsame : lettersIn ws' = lettersIn ws) : ws' = ws := by
  induction h with
  | nil => rfl
  | keep w _ ih =>
      rw [lettersIn_cons, lettersIn_cons, Nat.add_left_cancel_iff] at hsame
      rw [ih hsame]
  | replace _ _ hless h _ =>
      have hle := h.letters_le
      rw [lettersIn_append, lettersIn_append] at hsame
      omega

/-- What holds of terms and of all components holds afterwards. -/
theorem forall_mem {motive : String → Prop} (hterms : ∀ t ∈ terms, motive t) (h : Shortens ws ws')
    (hws : ∀ w ∈ ws, motive w) : ∀ w ∈ ws', motive w := by
  induction h with
  | nil => exact hws
  | keep w _ ih =>
      obtain ⟨hw, hws⟩ := List.forall_mem_cons.1 hws
      exact List.forall_mem_cons.2 ⟨hw, ih hws⟩
  | replace _ hnew _ _ ih =>
      exact List.forall_mem_append.2
        ⟨fun t ht => hterms t (hnew t ht), ih (List.forall_mem_append.1 hws).2⟩

/-- Some components are left if there were any. -/
theorem eq_nil_iff (h : Shortens ws ws') : ws' = [] ↔ ws = [] := by
  cases h with
  | nil => rfl
  | keep w _ => exact iff_of_false (List.cons_ne_nil w _) (List.cons_ne_nil w _)
  | replace hnew _ hless _ =>
      refine iff_of_false (fun hnil => hnew (List.append_eq_nil_iff.1 hnil).1) fun hnil => ?_
      rw [(List.append_eq_nil_iff.1 hnil).1] at hless
      exact Nat.not_lt_zero _ hless

/-- What holds of terms and of the last component holds of the last one afterwards. -/
theorem forall_mem_getLast? {motive : String → Prop} (hterms : ∀ t ∈ terms, motive t)
    (h : Shortens ws ws') (hws : ∀ w ∈ ws.getLast?, motive w) : ∀ w ∈ ws'.getLast?, motive w := by
  induction h with
  | nil => exact hws
  | @keep ws ws' w hrest ih =>
      rw [List.getLast?_cons]
      intro last hlast
      obtain rfl := Option.some.inj hlast
      cases hrest' : ws'.getLast? with
      | none =>
          have hnil : ws = [] := hrest.eq_nil_iff.1 (List.getLast?_eq_none_iff.1 hrest')
          exact hws w (by rw [hnil]; rfl)
      | some v =>
          refine ih (fun u hu => hws u ?_) v hrest'
          rw [List.getLast?_cons, hu]
          rfl
  | @replace run new ws ws' _ hnew _ _ ih =>
      intro last hlast
      rw [List.getLast?_append] at hlast
      cases hrest' : ws'.getLast? with
      | none =>
          rw [hrest', Option.none_or] at hlast
          exact hterms last (hnew last (List.mem_of_getLast? hlast))
      | some v =>
          rw [hrest'] at hlast
          obtain rfl := Option.some.inj hlast
          refine ih (fun u hu => hws u ?_) v hrest'
          rw [List.getLast?_append, hu]
          rfl

end Shortens

theorem letters_of_lowercase {w word : String} (h : Text.lowercase w = word) :
    letters w.toList = letters word.toList := by
  rw [← h, Text.lowercase, String.toList_ofList, letters_lower]

/-- The one-word form of a pair is a term and has fewer letters. -/
theorem mem_terms_of_repeatPair? {first second single : String}
    (h : repeatPair? first second = some single) :
    single ∈ terms ∧ lettersIn [single] < lettersIn [first, second] := by
  have hpair : ∀ {a b c : String}, Text.lowercase first = a → Text.lowercase second = b →
      c ∈ terms → lettersIn [c] < lettersIn [a, b] →
      c ∈ terms ∧ lettersIn [c] < lettersIn [first, second] := by
    intro a b c hfirst hsecond hmem hless
    refine ⟨hmem, ?_⟩
    rw [lettersIn_cons first, lettersIn_cons second, letters_of_lowercase hfirst,
      letters_of_lowercase hsecond]
    exact hless
  unfold repeatPair? at h
  split at h
  · next hfirst hsecond =>
      obtain rfl := Option.some.inj h
      exact hpair hfirst hsecond (by decide) (by decide)
  · next hfirst hsecond =>
      obtain rfl := Option.some.inj h
      exact hpair hfirst hsecond (by decide) (by decide)
  · next hfirst hsecond =>
      obtain rfl := Option.some.inj h
      exact hpair hfirst hsecond (by decide) (by decide)
  · next hfirst hsecond =>
      obtain rfl := Option.some.inj h
      exact hpair hfirst hsecond (by decide) (by decide)
  · cases h

theorem shortens_collapsePairs (ws : List String) : Shortens ws (collapsePairs ws) := by
  fun_induction collapsePairs ws with
  | case1 => exact .nil
  | case2 token => exact .refl [token]
  | case3 first second rest single hpair ih =>
      obtain ⟨hmem, hless⟩ := mem_terms_of_repeatPair? hpair
      have hreplace : Shortens ([first, second] ++ rest) ([single] ++ collapsePairs rest) :=
        .replace (List.cons_ne_nil _ _) (List.forall_mem_singleton.2 hmem) hless ih
      exact hreplace
  | case4 first second rest hpair ih => exact .keep first ih

/-- A position keyword has letters, and a term without letters comes in its place. -/
theorem letters_of_keyword? {w percent : String} {axis : Axis}
    (h : keyword? w = some (percent, axis)) :
    0 < letters w.toList ∧ percent ∈ terms ∧ letters percent.toList = 0 := by
  have hword : ∀ {word term : String}, Text.lowercase w = word → 0 < letters word.toList →
      term ∈ terms ∧ letters term.toList = 0 →
      0 < letters w.toList ∧ term ∈ terms ∧ letters term.toList = 0 := by
    intro word term hw hpos hterm
    rw [letters_of_lowercase hw]
    exact ⟨hpos, hterm⟩
  unfold keyword? at h
  split at h
  · next hw =>
      obtain ⟨rfl, -⟩ := Prod.mk.inj (Option.some.inj h)
      exact hword hw (by decide) (by decide)
  · next hw =>
      obtain ⟨rfl, -⟩ := Prod.mk.inj (Option.some.inj h)
      exact hword hw (by decide) (by decide)
  · next hw =>
      obtain ⟨rfl, -⟩ := Prod.mk.inj (Option.some.inj h)
      exact hword hw (by decide) (by decide)
  · next hw =>
      obtain ⟨rfl, -⟩ := Prod.mk.inj (Option.some.inj h)
      exact hword hw (by decide) (by decide)
  · next hw =>
      obtain ⟨rfl, -⟩ := Prod.mk.inj (Option.some.inj h)
      exact hword hw (by decide) (by decide)
  · cases h

/-- The percentages of a run are terms without letters, and the run has letters. -/
theorem terms_of_keywordPosition? {run percentages : List String}
    (h : keywordPosition? run = some percentages) :
    percentages ≠ [] ∧ (∀ t ∈ percentages, t ∈ terms) ∧ lettersIn percentages = 0 ∧
      0 < lettersIn run := by
  have hcenter : "50%" ∈ terms ∧ letters "50%".toList = 0 := by decide
  have htwo : ∀ {run : List String} {x y : String}, 0 < lettersIn run →
      x ∈ terms ∧ letters x.toList = 0 → y ∈ terms ∧ letters y.toList = 0 → percentages = [x, y] →
      percentages ≠ [] ∧ (∀ t ∈ percentages, t ∈ terms) ∧ lettersIn percentages = 0 ∧
        0 < lettersIn run := by
    rintro run x y hrun ⟨hx, hx'⟩ ⟨hy, hy'⟩ rfl
    refine ⟨List.cons_ne_nil _ _, by simp [hx, hy], ?_, hrun⟩
    rw [lettersIn_cons, lettersIn_cons, hx', hy']
    rfl
  unfold keywordPosition? at h
  split at h
  · next single =>
      obtain ⟨⟨percent, axis⟩, hsingle, h⟩ := Option.bind_eq_some_iff.1 h
      obtain ⟨hpos, hpercent⟩ := letters_of_keyword? hsingle
      have hrun : 0 < lettersIn [single] := Nat.add_pos_left hpos _
      cases axis with
      | horizontal => exact htwo hrun hpercent hcenter (Option.some.inj h).symm
      | vertical => exact htwo hrun hcenter hpercent (Option.some.inj h).symm
      | either => exact htwo hrun hcenter hcenter (Option.some.inj h).symm
  · next first second =>
      obtain ⟨⟨percent, axis⟩, hfirst, h⟩ := Option.bind_eq_some_iff.1 h
      obtain ⟨⟨percent', axis'⟩, hsecond, h⟩ := Option.bind_eq_some_iff.1 h
      obtain ⟨hpos, hpercent⟩ := letters_of_keyword? hfirst
      obtain ⟨-, hpercent'⟩ := letters_of_keyword? hsecond
      have hrun : 0 < lettersIn [first, second] := Nat.add_pos_left hpos _
      cases axis with
      | horizontal =>
          cases axis' with
          | horizontal => cases h
          | vertical | either => exact htwo hrun hpercent hpercent' (Option.some.inj h).symm
      | vertical =>
          cases axis' with
          | vertical => cases h
          | horizontal | either => exact htwo hrun hpercent' hpercent (Option.some.inj h).symm
      | either =>
          cases axis' with
          | horizontal => exact htwo hrun hpercent' hpercent (Option.some.inj h).symm
          | vertical | either => exact htwo hrun hpercent hpercent' (Option.some.inj h).symm
  · cases h

theorem shortens_normalizeRun (before : Option String) (run : List String) (after : Option String)
    {ws ws' : List String} (h : Shortens ws ws') :
    Shortens (run ++ ws) (normalizeRun before run after ++ ws') := by
  rw [normalizeRun]
  cases hposition : keywordPosition? run with
  | none => exact h.keeps run
  | some percentages =>
      obtain ⟨hne, hmem, hnone, hpos⟩ := terms_of_keywordPosition? hposition
      dsimp only
      split
      · exact h.keeps run
      · exact .replace hne hmem (by omega) h

theorem shortens_normalizeFrom (before : Option String) (run ws : List String) :
    Shortens (run ++ ws) (normalizeFrom before run ws) := by
  induction ws generalizing before run with
  | nil =>
      have hrun := shortens_normalizeRun before run none .nil
      rwa [List.append_nil (normalizeRun before run none)] at hrun
  | cons token rest ih =>
      rw [normalizeFrom]
      split
      · have hrest := ih before (run ++ [token])
        rwa [List.append_assoc] at hrest
      · exact shortens_normalizeRun before run (some token) (.keep token (ih (some token) []))

/-! ## Components in short form -/

/-- Repeat keywords stay when no two of them make a pair. -/
theorem collapsePairs_eq_self_iff {ws : List String} :
    collapsePairs ws = ws ↔ ws.IsChain fun first second => repeatPair? first second = none := by
  fun_induction collapsePairs ws with
  | case1 => exact iff_of_true rfl .nil
  | case2 token => exact iff_of_true rfl (.singleton token)
  | case3 first second rest single hpair ih =>
      refine iff_of_false (fun hsame => ?_) (fun hchain => ?_)
      · obtain ⟨-, hless⟩ := mem_terms_of_repeatPair? hpair
        have hle := (shortens_collapsePairs rest).letters_le
        have hletters := congrArg lettersIn hsame
        simp only [lettersIn_cons] at hletters hless
        omega
      · rw [List.isChain_cons_cons, hpair] at hchain
        cases hchain.1
  | case4 first second rest hpair ih =>
      rw [List.cons.injEq, eq_self_iff_true, true_and, ih, List.isChain_cons_cons, hpair,
        eq_self_iff_true, true_and]

/-- Every run of position keywords behind the component `before` stands as it is: it is no position
of one or two keywords, or a length or percentage is next to it. -/
def RunsStand (before : Option String) (ws : List String) : Prop :=
  ∀ a run b, ws = a ++ (run ++ b) → (∀ w ∈ run, (keyword? w).isSome = true) →
    (∀ w ∈ a.getLast?, keyword? w = none) → (∀ w ∈ b.head?, keyword? w = none) →
    keywordPosition? run = none ∨ (a.getLast?.or before).any isOffset = true ∨
      b.head?.any isOffset = true

theorem normalizeRun_eq_self_iff {before after : Option String} {run : List String} :
    normalizeRun before run after = run ↔
      keywordPosition? run = none ∨ before.any isOffset = true ∨ after.any isOffset = true := by
  rw [normalizeRun]
  cases hposition : keywordPosition? run with
  | none => exact iff_of_true rfl (.inl rfl)
  | some percentages =>
      dsimp only
      split
      · next hoffset => exact iff_of_true rfl (.inr ((Bool.or_eq_true _ _).mp hoffset))
      · next hoffset =>
          refine iff_of_false (fun hsame => ?_) ?_
          · obtain ⟨-, -, hnone, hpos⟩ := terms_of_keywordPosition? hposition
            rw [hsame] at hnone
            omega
          · rintro (hnone | hoffset')
            · cases hnone
            · exact hoffset ((Bool.or_eq_true _ _).mpr hoffset')

theorem normalizeFrom_run {run : List String} (hrun : ∀ w ∈ run, (keyword? w).isSome = true)
    (before : Option String) (passed b : List String) :
    normalizeFrom before passed (run ++ b) = normalizeFrom before (passed ++ run) b := by
  induction run generalizing passed with
  | nil => rw [List.append_nil, List.nil_append]
  | cons w run ih =>
      obtain ⟨hw, hrun⟩ := List.forall_mem_cons.1 hrun
      rw [List.cons_append, normalizeFrom, if_pos hw, ih hrun, List.append_assoc]
      rfl

theorem normalizeFrom_of_not_keyword {token : String} (h : keyword? token = none)
    (before : Option String) (run rest : List String) :
    normalizeFrom before run (token :: rest) =
      normalizeRun before run (some token) ++ token :: normalizeFrom (some token) [] rest := by
  rw [normalizeFrom, h, Option.isSome_none, if_neg Bool.false_ne_true]

/-- What is behind a component that is no keyword is treated on its own. -/
theorem normalizeFrom_append {token : String} (h : keyword? token = none) (before : Option String)
    (run a b : List String) :
    normalizeFrom before run (a ++ token :: b) =
      normalizeFrom before run (a ++ [token]) ++ normalizeFrom (some token) [] b := by
  induction a generalizing before run with
  | nil =>
      rw [List.nil_append, List.nil_append, normalizeFrom_of_not_keyword h,
        normalizeFrom_of_not_keyword h]
      simp [normalizeFrom, normalizeRun, keywordPosition?]
  | cons w a ih =>
      rw [List.cons_append, List.cons_append, normalizeFrom, normalizeFrom]
      split
      · exact ih before (run ++ [w])
      · rw [ih (some w) []]
        simp

/-- A run between components that are no keywords is replaced for itself. -/
theorem normalizeFrom_split {a run b : List String} (hrun : ∀ w ∈ run, (keyword? w).isSome = true)
    (ha : ∀ w ∈ a.getLast?, keyword? w = none) (hb : ∀ w ∈ b.head?, keyword? w = none) :
    ∃ a' b', Shortens a a' ∧ Shortens b b' ∧
      normalizeFrom none [] (a ++ (run ++ b)) =
        a' ++ (normalizeRun a.getLast? run b.head? ++ b') := by
  have hrest : ∀ before, ∃ b', Shortens b b' ∧
      normalizeFrom before [] (run ++ b) = normalizeRun before run b.head? ++ b' := by
    intro before
    rw [normalizeFrom_run hrun, List.nil_append]
    cases b with
    | nil => exact ⟨[], .nil, (List.append_nil _).symm⟩
    | cons w b =>
        rw [normalizeFrom_of_not_keyword (hb w rfl)]
        exact ⟨_, .keep w (shortens_normalizeFrom (some w) [] b), rfl⟩
  rcases List.eq_nil_or_concat' a with rfl | ⟨init, last, rfl⟩
  · obtain ⟨b', hb', hrun'⟩ := hrest none
    exact ⟨[], b', .nil, hb', hrun'⟩
  · rw [List.getLast?_concat] at ha ⊢
    obtain ⟨b', hb', hrun'⟩ := hrest (some last)
    refine ⟨_, b', shortens_normalizeFrom none [] (init ++ [last]), hb', ?_⟩
    rw [List.append_assoc, List.singleton_append, normalizeFrom_append (ha last rfl), hrun']

theorem normalizeFrom_of_runsStand {before : Option String} {run ws : List String}
    (hrun : ∀ w ∈ run, (keyword? w).isSome = true) (h : RunsStand before (run ++ ws)) :
    normalizeFrom before run ws = run ++ ws := by
  induction ws generalizing before run with
  | nil =>
      rw [normalizeFrom, List.append_nil, normalizeRun_eq_self_iff]
      exact h [] run [] rfl hrun (by simp) (by simp)
  | cons token rest ih =>
      cases htoken : keyword? token with
      | some position =>
          have hmore : ∀ w ∈ run ++ [token], (keyword? w).isSome = true :=
            List.forall_mem_append.2 ⟨hrun, by simp [htoken]⟩
          have hrest := ih hmore (by rwa [List.append_assoc])
          rw [normalizeFrom, htoken, Option.isSome_some, if_pos rfl, hrest, List.append_assoc]
          rfl
      | none =>
          have hthis : normalizeRun before run (some token) = run := by
            rw [normalizeRun_eq_self_iff]
            exact h [] run (token :: rest) rfl hrun (by simp) (by simpa using htoken)
          -- Runs behind the token are runs of the layer.
          have hbehind : RunsStand (some token) ([] ++ rest) := by
            intro a run' b hrest hrun' ha hb
            rw [List.nil_append] at hrest
            have hlast : (run ++ token :: a).getLast? = some (a.getLast?.getD token) := by
              rw [List.getLast?_append, List.getLast?_cons, Option.some_or]
            have hstand := h (run ++ token :: a) run' b (by rw [hrest]; simp) hrun'
            rw [hlast] at hstand
            have hor : a.getLast?.or (some token) = some (a.getLast?.getD token) := by
              cases a.getLast? with
              | none => rfl
              | some w => rfl
            rw [hor]
            refine hstand (fun w hw => ?_) hb
            obtain rfl := Option.some.inj hw
            cases hlast' : a.getLast? with
            | none => exact htoken
            | some w => exact ha w hlast'
          rw [normalizeFrom_of_not_keyword htoken, hthis, ih (by simp) hbehind]
          rfl

/-- Position keywords stay when all their runs stand. -/
theorem normalizeFrom_eq_self_iff {ws : List String} :
    normalizeFrom none [] ws = ws ↔ RunsStand none ws := by
  constructor
  · rintro hsame a run b rfl hrun ha hb
    obtain ⟨a', b', ha', hb', hsplit⟩ := normalizeFrom_split hrun ha hb
    have hrun' := shortens_normalizeRun a.getLast? run b.head? .nil
    rw [List.append_nil, List.append_nil] at hrun'
    have hletters := congrArg lettersIn (hsplit.symm.trans hsame)
    simp only [lettersIn_append] at hletters
    have hsum := ha'.letters_le
    have hsum' := hb'.letters_le
    have hsum'' := hrun'.letters_le
    rw [Option.or_none]
    exact normalizeRun_eq_self_iff.1 (hrun'.eq_of_letters (by omega))
  · intro h
    exact normalizeFrom_of_runsStand (by simp) h

theorem keyword?_of_letters {w : String} (h : letters w.toList = 0) : keyword? w = none := by
  cases hkeyword : keyword? w with
  | none => rfl
  | some position =>
      obtain ⟨hpos, -⟩ := letters_of_keyword? hkeyword
      omega

theorem normalizeRun_nil (before after : Option String) : normalizeRun before [] after = [] := rfl

/-- The run before a component that is no keyword is empty, so what stands before it does not matter. -/
theorem normalizeFrom_nil {rest : List String} (h : ∀ w ∈ rest.head?, keyword? w = none)
    (before before' : Option String) :
    normalizeFrom before [] rest = normalizeFrom before' [] rest := by
  cases rest with
  | nil => rfl
  | cons w rest =>
      rw [normalizeFrom_of_not_keyword (h w rfl), normalizeFrom_of_not_keyword (h w rfl),
        normalizeRun_nil, normalizeRun_nil]

theorem normalizeFrom_of_not_keywords {ws rest : List String} (hws : ∀ w ∈ ws, keyword? w = none)
    (hrest : ∀ w ∈ rest.head?, keyword? w = none) (before : Option String) :
    normalizeFrom before [] (ws ++ rest) = ws ++ normalizeFrom none [] rest := by
  induction ws generalizing before with
  | nil => exact normalizeFrom_nil hrest before none
  | cons w ws ih =>
      obtain ⟨hw, hws⟩ := List.forall_mem_cons.1 hws
      rw [List.cons_append, normalizeFrom_of_not_keyword hw, normalizeRun_nil, ih hws]
      rfl

/-- A run that was tried is left alone, whether it became percentages or not. -/
theorem normalizeFrom_normalizeRun (before : Option String) {run : List String} (rest : List String)
    (hrun : ∀ w ∈ run, (keyword? w).isSome = true)
    (hrest : ∀ w ∈ rest.head?, keyword? w = none) :
    normalizeFrom before [] (normalizeRun before run rest.head? ++ rest) =
      normalizeRun before run rest.head? ++ normalizeFrom none [] rest := by
  by_cases hstands : normalizeRun before run rest.head? = run
  · rw [hstands, normalizeFrom_run hrun, List.nil_append]
    cases rest with
    | nil => rw [normalizeFrom, normalizeFrom, normalizeRun_nil, List.append_nil]; exact hstands
    | cons w rest =>
        rw [normalizeFrom_of_not_keyword (hrest w rfl), normalizeFrom_of_not_keyword (hrest w rfl),
          normalizeRun_nil]
        exact congrArg (· ++ _) hstands
  · refine normalizeFrom_of_not_keywords (fun w hw => ?_) hrest before
    rw [normalizeRun] at hw hstands
    cases hposition : keywordPosition? run with
    | none => rw [hposition] at hstands; exact absurd rfl hstands
    | some percentages =>
        obtain ⟨-, -, hnone, -⟩ := terms_of_keywordPosition? hposition
        rw [hposition] at hw hstands
        dsimp only at hw hstands
        split at hw
        · next hoffset => rw [if_pos hoffset] at hstands; exact absurd rfl hstands
        · exact keyword?_of_letters (letters_of_mem hw hnone)

/-- Position keywords are brought into short form once. -/
theorem normalizeFrom_normalizeFrom {before : Option String} {run : List String}
    (hrun : ∀ w ∈ run, (keyword? w).isSome = true) (ws : List String) :
    normalizeFrom before [] (normalizeFrom before run ws) = normalizeFrom before run ws := by
  induction ws generalizing before run with
  | nil =>
      have htried := normalizeFrom_normalizeRun before [] hrun (by simp)
      rw [List.append_nil] at htried
      rw [normalizeFrom]
      refine htried.trans ?_
      rw [normalizeFrom, normalizeRun_nil, List.append_nil]
      rfl
  | cons token rest ih =>
      cases htoken : keyword? token with
      | some position =>
          have hmore : ∀ w ∈ run ++ [token], (keyword? w).isSome = true :=
            List.forall_mem_append.2 ⟨hrun, by simp [htoken]⟩
          rw [normalizeFrom, htoken, Option.isSome_some, if_pos rfl]
          exact ih hmore
      | none =>
          have hbehind : normalizeFrom (some token) [] (normalizeFrom (some token) [] rest) =
              normalizeFrom (some token) [] rest := ih (by simp)
          have htried := normalizeFrom_normalizeRun before
            (token :: normalizeFrom (some token) [] rest) hrun (by simpa using htoken)
          rw [List.head?_cons] at htried
          rw [normalizeFrom_of_not_keyword htoken, htried, normalizeFrom_of_not_keyword htoken,
            normalizeRun_nil, hbehind]
          rfl

end Background

end Stylesheet
