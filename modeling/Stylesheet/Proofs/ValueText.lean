import Stylesheet.Proofs.Trimming
import Stylesheet.Value

/-!
# Components of a value

A value is *closed* when the splitter is back at the top level at its end: no bracket and no quote is
open, and no backslash waits for a character.  Behind a closed value, a separator separates, so that
the components of two values with a space between them are those of the one and then those of the
other (`components_append`).

A *token* is a closed value that is its own only component.  Trimmed and closed values with one
component are tokens (`Tidy.isToken`), and tokens with spaces between them are read back as they are
(`components_join`).
-/

namespace Stylesheet.Text

instance (cs : List Char) : Decidable (Trimmed cs) := inferInstanceAs (Decidable (_ ∧ _))

/-- A text with a character that is no space is not all spaces. -/
theorem trim_ne_nil {cs : List Char} {c : Char} (hc : c ∈ cs) (hspace : isSpace c = false) :
    trim cs ≠ [] := by
  intro hnil
  obtain ⟨a, b, hcs, ha, hb, -⟩ := exists_trim cs
  rw [hnil, List.append_nil] at hcs
  rw [hcs] at hc
  have hspaces := ha.append hb c hc
  rw [hspace] at hspaces
  cases hspaces

/-- The end of a trimmed text. -/
theorem Trimmed.last {a : List Char} {c : Char} (h : Trimmed (a ++ [c])) : isSpace c = false := by
  have hlast := h.2
  rw [List.reverse_append] at hlast
  exact hlast

end Stylesheet.Text

namespace Stylesheet.Value

open Stylesheet.Text (consFirst trim isSpace Trimmed)

/-! ## Nesting -/

/-- Where the splitter is after a text. -/
def Nesting.along (s : Nesting) (cs : List Char) : Nesting := cs.foldl Nesting.next s

theorem Nesting.along_append (s : Nesting) (a b : List Char) :
    s.along (a ++ b) = (s.along a).along b := List.foldl_append

theorem Nesting.along_cons (s : Nesting) (c : Char) (cs : List Char) :
    s.along (c :: cs) = (s.next c).along cs := rfl

/-- The splitter is at the top level after the value. -/
def Closed (value : String) : Prop := ({} : Nesting).along value.toList = {}

instance (value : String) : Decidable (Closed value) :=
  inferInstanceAs (Decidable (Nesting.along _ _ = _))

theorem Nesting.eq_top {s : Nesting} (h : s.isTop = true) : s = {} := by
  obtain ⟨depth, quote, escaped⟩ := s
  simp only [isTop, Bool.and_eq_true, beq_iff_eq, Option.isNone_iff_eq_none,
    Bool.not_eq_true'] at h
  obtain ⟨⟨rfl, rfl⟩, rfl⟩ := h
  rfl

/-- The characters to which the splitter pays attention. -/
def marks : List Char := ['\\', '"', '\'', '(', '[', ')', ']']

/-- Does the splitter pay attention to the character? -/
def isMark (c : Char) : Bool := marks.contains c

theorem isMark_of_class {p : Char → Bool} (hmarks : marks.all (fun d => !p d) = true) {c : Char}
    (h : p c = true) : isMark c = false := by
  rw [isMark, List.contains_eq_mem, decide_eq_false_iff_not]
  exact Text.not_mem_of_class hmarks h

theorem beq_eq_false_of_not_isMark {c : Char} (h : isMark c = false) : ∀ d ∈ marks, (c == d) = false := by
  intro d hd
  rw [beq_eq_false_iff_ne]
  rintro rfl
  rw [isMark, List.contains_iff_mem.2 hd] at h
  cases h

theorem next_of_not_isMark {c : Char} (h : isMark c = false) : ({} : Nesting).next c = {} := by
  have hne := beq_eq_false_of_not_isMark h
  rw [marks] at hne
  simp [Nesting.next, hne]

theorem next_space {c : Char} (h : isSpace c = true) : ({} : Nesting).next c = {} :=
  next_of_not_isMark (isMark_of_class (by decide) h)

theorem Closed.append {a b : String} (ha : Closed a) (hb : Closed b) : Closed (a ++ " " ++ b) := by
  have htext : (a ++ " " ++ b).toList = a.toList ++ ' ' :: b.toList := by simp
  have hspace : ({} : Nesting).next ' ' = {} := next_space (by decide)
  rw [Closed, htext, Nesting.along_append, ha, Nesting.along_cons, hspace]
  exact hb

/-! ## Pieces -/

section Pieces

variable {isSeparator : Char → Bool}

theorem piecesFrom_ne_nil (s : Nesting) (cs : List Char) : piecesFrom isSeparator s cs ≠ [] := by
  cases cs with
  | nil => simp [piecesFrom]
  | cons c cs =>
      rw [piecesFrom]
      split
      · simp
      · cases piecesFrom isSeparator (s.next c) cs with
        | nil => simp [consFirst]
        | cons p ps => simp [consFirst]

theorem consFirst_append (c : Char) {ps : List (List Char)} (h : ps ≠ []) (qs : List (List Char)) :
    consFirst c (ps ++ qs) = consFirst c ps ++ qs := by
  cases ps with
  | nil => exact absurd rfl h
  | cons p ps => rfl

/-- At the top level a separator ends a piece. -/
theorem piecesFrom_append (hnext : ∀ c, isSeparator c = true → ({} : Nesting).next c = {})
    {s : Nesting} {a : List Char} (ha : s.along a = {}) {c : Char} (hc : isSeparator c = true)
    (b : List Char) :
    piecesFrom isSeparator s (a ++ c :: b) =
      piecesFrom isSeparator s a ++ piecesFrom isSeparator {} b := by
  induction a generalizing s with
  | nil =>
      obtain rfl : s = {} := ha
      have htop : ({} : Nesting).isTop = true := rfl
      rw [List.nil_append, piecesFrom, piecesFrom, htop, hc]
      rfl
  | cons x a ih =>
      rw [Nesting.along_cons] at ha
      rw [List.cons_append, piecesFrom, piecesFrom]
      cases htop : s.isTop && isSeparator x with
      | true =>
          rw [Bool.and_eq_true] at htop
          obtain rfl := Nesting.eq_top htop.1
          rw [hnext x htop.2] at ha
          rw [if_pos rfl, if_pos rfl, ih ha]
          rfl
      | false =>
          rw [if_neg (by simp), if_neg (by simp), ih ha, consFirst_append x (piecesFrom_ne_nil _ _)]

/-- A text has no separators at the top level, or it is cut at the first of them. -/
theorem piecesFrom_cases (s : Nesting) (cs : List Char) :
    piecesFrom isSeparator s cs = [cs] ∨
      ∃ a c b t, cs = a ++ c :: b ∧ isSeparator c = true ∧
        piecesFrom isSeparator s cs = a :: piecesFrom isSeparator t b := by
  induction cs generalizing s with
  | nil => exact .inl rfl
  | cons x cs ih =>
      rw [piecesFrom]
      cases htop : s.isTop && isSeparator x with
      | true =>
          rw [Bool.and_eq_true] at htop
          exact .inr ⟨[], x, cs, s, rfl, htop.2, by rw [if_pos rfl]⟩
      | false =>
          rw [if_neg (by simp)]
          rcases ih (s.next x) with hone | ⟨a, c, b, t, hcs, hc, hpieces⟩
          · exact .inl (by rw [hone]; rfl)
          · exact .inr ⟨x :: a, c, b, t, by rw [hcs]; rfl, hc, by rw [hpieces]; rfl⟩

/-- A character that is no separator is in one of the pieces. -/
theorem exists_piece {s : Nesting} {cs : List Char} {c : Char} (hc : c ∈ cs)
    (hother : isSeparator c = false) : ∃ p ∈ piecesFrom isSeparator s cs, c ∈ p := by
  induction cs generalizing s with
  | nil => cases hc
  | cons x cs ih =>
      rw [piecesFrom]
      split
      · next htop =>
          rcases List.mem_cons.1 hc with rfl | hmem
          · simp [hother] at htop
          · obtain ⟨p, hp, hcp⟩ := ih hmem (s := s)
            exact ⟨p, List.mem_cons_of_mem _ hp, hcp⟩
      · cases hpieces : piecesFrom isSeparator (s.next x) cs with
        | nil => exact absurd hpieces (piecesFrom_ne_nil _ _)
        | cons p ps =>
            rcases List.mem_cons.1 hc with rfl | hmem
            · exact ⟨c :: p, by simp [consFirst], by simp⟩
            · obtain ⟨q, hq, hcq⟩ := ih hmem (s := s.next x)
              rw [hpieces] at hq
              rcases List.mem_cons.1 hq with rfl | hq
              · exact ⟨x :: q, by simp [consFirst], by simp [hcq]⟩
              · exact ⟨q, by simp [consFirst, hq], hcq⟩

end Pieces

/-! ## Tokens -/

/-- A closed value that is its only component. -/
structure IsToken (value : String) : Prop where
  /-- The value has no other components. -/
  components_eq : components value = [value]
  /-- The value is closed. -/
  closed : Closed value

/-- Components are trimmed and not empty. -/
theorem trimmed_of_mem_components {value c : String} (h : c ∈ components value) :
    Trimmed c.toList ∧ c.toList ≠ [] := by
  obtain ⟨piece, hpiece, rfl⟩ := List.mem_map.1 h
  obtain ⟨hmem, hne⟩ := List.mem_filter.1 hpiece
  obtain ⟨p, -, rfl⟩ := List.mem_map.1 hmem
  rw [String.toList_ofList]
  exact ⟨Text.trimmed_trim p, by simpa using hne⟩

/-- A trimmed and closed value. -/
structure Tidy (value : String) : Prop where
  /-- No space is at either end. -/
  trimmed : Trimmed value.toList
  /-- The value is closed. -/
  closed : Closed value

instance (value : String) : Decidable (Tidy value) :=
  decidable_of_iff (Trimmed value.toList ∧ Closed value)
    ⟨fun h => ⟨h.1, h.2⟩, fun h => ⟨h.trimmed, h.closed⟩⟩

/-- Tokens with spaces between them are tidy and not empty. -/
theorem tidy_join {tokens : List String} (h : ∀ t ∈ tokens, IsToken t) (hne : tokens ≠ []) :
    Tidy (Text.join " " tokens) ∧ (Text.join " " tokens).toList ≠ [] := by
  induction tokens with
  | nil => exact absurd rfl hne
  | cons t ts ih =>
      have ht := h t List.mem_cons_self
      have hself : t ∈ components t := by simp [ht.components_eq]
      obtain ⟨htrimmed, htne⟩ := trimmed_of_mem_components hself
      cases ts with
      | nil => exact ⟨⟨htrimmed, ht.closed⟩, htne⟩
      | cons u us =>
          obtain ⟨htidy, hrest⟩ := ih (fun v hv => h v (List.mem_cons_of_mem t hv)) (by simp)
          have hjoin : Text.join " " (t :: u :: us) = t ++ " " ++ Text.join " " (u :: us) := rfl
          have htext : (Text.join " " (t :: u :: us)).toList =
              t.toList ++ ([' '] ++ (Text.join " " (u :: us)).toList) := by
            rw [hjoin]
            simp
          refine ⟨⟨?_, ?_⟩, ?_⟩
          · rw [htext]
            exact htrimmed.append htidy.trimmed htne hrest [' ']
          · rw [hjoin]
            exact ht.closed.append htidy.closed
          · rw [htext]
            simp [htne]

/-- The components of two values with a space between them. -/
theorem components_append {a : String} (ha : Closed a) (b : String) :
    components (a ++ " " ++ b) = components a ++ components b := by
  have hpieces : piecesFrom isSpace {} (a.toList ++ ' ' :: b.toList) =
      piecesFrom isSpace {} a.toList ++ piecesFrom isSpace {} b.toList :=
    piecesFrom_append (fun _ => next_space) ha (by decide) b.toList
  have htext : (a ++ " " ++ b).toList = a.toList ++ ' ' :: b.toList := by simp
  simp only [components, splitTopLevel, htext, hpieces, List.map_append, List.filter_append]

/-- Tokens with spaces between them are read back. -/
theorem components_join {tokens : List String} (h : ∀ t ∈ tokens, IsToken t) :
    components (Text.join " " tokens) = tokens := by
  induction tokens with
  | nil => rfl
  | cons t ts ih =>
      have ht := h t List.mem_cons_self
      have hts := ih fun u hu => h u (List.mem_cons_of_mem t hu)
      cases ts with
      | nil => exact ht.components_eq
      | cons u us =>
          have hjoin : Text.join " " (t :: u :: us) = t ++ " " ++ Text.join " " (u :: us) := rfl
          rw [hjoin, components_append ht.closed, ht.components_eq, hts]
          rfl

/-- A text with a character that is no space has a component. -/
theorem splitTopLevel_of_mem {s : Nesting} {cs : List Char} {c : Char} (hc : c ∈ cs)
    (hspace : isSpace c = false) :
    ((piecesFrom isSpace s cs).map trim).filter (fun piece => !piece.isEmpty) ≠ [] := by
  obtain ⟨p, hp, hcp⟩ := exists_piece hc hspace (s := s)
  refine List.ne_nil_of_mem (a := trim p) (List.mem_filter.2 ⟨List.mem_map_of_mem hp, ?_⟩)
  simpa using Text.trim_ne_nil hcp hspace

/-- A trimmed value with one component is this component. -/
theorem components_eq_of_isSingle {value : String} (htrimmed : Trimmed value.toList)
    (hsingle : isSingle value = true) : components value = [value] := by
  have hlength : (splitTopLevel isSpace value.toList).length = 1 := by
    simpa [isSingle, components] using hsingle
  rw [splitTopLevel] at hlength
  rcases piecesFrom_cases {} value.toList with hone | ⟨a, c, b, t, hvalue, hc, hpieces⟩
  · have htrim : trim value.toList = value.toList := Text.trim_eq_self_iff.2 htrimmed
    rw [hone, List.map_singleton, htrim] at hlength
    have hne : value.toList ≠ [] := by
      intro hnil
      rw [hnil] at hlength
      cases hlength
    rw [components, splitTopLevel, hone, List.map_singleton, htrim,
      List.filter_cons_of_pos (by simpa using hne), List.filter_nil, List.map_singleton,
      String.ofList_toList]
  · -- The first and the last character are no spaces and stand on different sides of the
    -- separator, so there are two components.
    rw [hvalue] at htrimmed
    have hfirst : trim a ≠ [] := by
      cases a with
      | nil =>
          have hhead : isSpace c = false := htrimmed.1
          rw [hc] at hhead
          cases hhead
      | cons x a => exact Text.trim_ne_nil List.mem_cons_self htrimmed.1
    have hlast : ((piecesFrom isSpace t b).map trim).filter (fun p => !p.isEmpty) ≠ [] := by
      rcases List.eq_nil_or_concat b with rfl | ⟨init, x, rfl⟩
      · have htail : isSpace c = false := Trimmed.last htrimmed
        rw [hc] at htail
        cases htail
      · refine splitTopLevel_of_mem (c := x) (by simp) (Trimmed.last (a := a ++ c :: init) ?_)
        simpa using htrimmed
    rw [hpieces, List.map_cons, List.filter_cons_of_pos (by simpa using hfirst),
      List.length_cons] at hlength
    exact absurd (List.length_eq_zero_iff.1 (by omega)) hlast

/-- A tidy value with one component is a token. -/
theorem Tidy.isToken {value : String} (h : Tidy value) (hsingle : isSingle value = true) :
    IsToken value :=
  ⟨components_eq_of_isSingle h.trimmed hsingle, h.closed⟩

end Stylesheet.Value
