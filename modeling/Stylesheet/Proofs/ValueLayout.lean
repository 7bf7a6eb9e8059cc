import Mathlib.Data.List.Basic
import Stylesheet.Proofs.ValueText

/-!
# The layout of a value

To change a value it is split, its pieces are changed, and they are put together again, with one
separator between neighbours.  There are two levels on which this is done: components, with a space
between them, and layers, with a comma and a space.

Splitting again need not find the pieces that were put together.  A piece can end in a backslash: what
this escaped was a space at the end of the piece, and that space was trimmed.  Now the backslash
escapes the separator behind it, and two pieces are one.  Nothing else can happen, and so the text is
*laid out*: pieces that are found in it and put together make the same text, and only the last of them
can leave anything open (`Level.Line.laid`).  What holds of all pieces, and of two pieces made one,
holds of the pieces that are found (`Level.Line.forall_mem_split`).
-/

namespace Stylesheet.Text

/-- Spaces at the end of a text go, also behind other text. -/
theorem trim_append {p gap q : List Char} (hp : Trimmed p) (hne : p ≠ [])
    (hq : headIs isSpace q = false) (hqne : q ≠ []) :
    trim (p ++ (gap ++ q)) = p ++ (gap ++ trim q) := by
  obtain ⟨a, b, htext, ha, hb, hm⟩ := exists_trim q
  have hnil : a = [] := by
    cases a with
    | nil => rfl
    | cons c a =>
        rw [htext] at hq
        have hc : isSpace c = false := hq
        rw [ha c List.mem_cons_self] at hc
        cases hc
  have htrim : trim q ≠ [] := by
    cases q with
    | nil => exact absurd rfl hqne
    | cons c q => exact trim_ne_nil List.mem_cons_self hq
  have hend : q = trim q ++ b := by rwa [hnil] at htext
  have hwhole : p ++ (gap ++ q) = [] ++ (p ++ (gap ++ trim q)) ++ b :=
    calc p ++ (gap ++ q) = p ++ (gap ++ (trim q ++ b)) := by rw [← hend]
      _ = [] ++ (p ++ (gap ++ trim q)) ++ b := by simp
  rw [hwhole]
  exact trim_eq_of_trimmed spaces_nil (hp.append hm hne htrim gap) hb

end Stylesheet.Text

namespace Stylesheet.Value

open Stylesheet.Text (consFirst trim isSpace headIs Trimmed Spaces)

/-! ## What is open -/

namespace Nesting

/-- At most a backslash waits: no bracket and no quote is open. -/
def Rests (s : Nesting) : Prop := s.depth = 0 ∧ s.quote = none

/-- A quote is no space. -/
def Sound (s : Nesting) : Prop := ∀ q, s.quote = some q → isSpace q = false

theorem rests_top : ({} : Nesting).Rests := ⟨rfl, rfl⟩

theorem sound_top : ({} : Nesting).Sound := fun _ h => nomatch h

theorem Rests.eq {s : Nesting} (h : s.Rests) : s = {} ∨ s = { escaped := true } := by
  obtain ⟨depth, quote, escaped⟩ := s
  obtain ⟨rfl, rfl⟩ : depth = 0 ∧ quote = none := h
  cases escaped with
  | false => exact .inl rfl
  | true => exact .inr rfl

/-- A character that opens nothing opens nothing behind a backslash either. -/
theorem Rests.next {s : Nesting} (h : s.Rests) {c : Char} (hc : ({} : Nesting).next c = {}) :
    s.next c = {} := by
  rcases h.eq with rfl | rfl
  · exact hc
  · rfl

theorem Sound.next {s : Nesting} (h : s.Sound) (c : Char) : (s.next c).Sound := by
  intro q hq
  rw [Nesting.next] at hq
  split at hq
  · exact h q hq
  split at hq
  · exact h q hq
  cases hquote : s.quote with
  | some open_ =>
      rw [hquote] at hq
      dsimp only at hq
      split at hq
      · cases hq
      · exact h q hq
  | none =>
      rw [hquote] at hq
      dsimp only at hq
      split at hq
      · next hmark =>
          obtain rfl : c = q := Option.some.inj hq
          rw [Bool.or_eq_true, beq_iff_eq, beq_iff_eq] at hmark
          rcases hmark with rfl | rfl
          · decide
          · decide
      · split at hq
        · cases hq
        · split at hq
          · cases hq
          · exact h q hq

theorem Sound.along {s : Nesting} (h : s.Sound) (cs : List Char) : (s.along cs).Sound := by
  induction cs generalizing s with
  | nil => exact h
  | cons c cs ih => exact ih (h.next c)

/-- Spaces close nothing. -/
theorem rests_of_next {s : Nesting} (hs : s.Sound) {c : Char} (hc : isSpace c = true)
    (h : (s.next c).Rests) : s.Rests := by
  have hmark := beq_eq_false_of_not_isMark (isMark_of_class (by decide) hc)
  rw [Nesting.next, hmark '\\' (by decide)] at h
  split at h
  · exact h
  · cases hquote : s.quote with
    | some q =>
        have hne : (c == q) = false := by
          rw [beq_eq_false_iff_ne]
          rintro rfl
          rw [hs c hquote] at hc
          cases hc
        simp only [hquote, hne, Bool.false_eq_true, if_false] at h
        exact h
    | none =>
        rw [marks] at hmark
        simp only [hquote, hmark, List.mem_cons, true_or, or_true, Bool.or_self, Bool.false_eq_true,
          if_false] at h
        exact h

theorem rests_of_along {s : Nesting} (hs : s.Sound) {gap : List Char} (hgap : Spaces gap)
    (h : (s.along gap).Rests) : s.Rests := by
  induction gap generalizing s with
  | nil => exact h
  | cons c gap ih =>
      obtain ⟨hc, hgap⟩ := List.forall_mem_cons.1 hgap
      exact rests_of_next hs hc (ih (hs.next c) hgap h)

/-- Only a backslash escapes. -/
theorem not_escaped_along {cs : List Char} (hplain : '\\' ∉ cs) {s : Nesting}
    (h : s.escaped = false) : (s.along cs).escaped = false := by
  induction cs generalizing s with
  | nil => exact h
  | cons c cs ih =>
      rw [List.mem_cons, not_or] at hplain
      obtain ⟨hc, hcs⟩ := hplain
      refine ih hcs ?_
      have hne : (c == '\\') = false := beq_eq_false_iff_ne.2 (Ne.symm hc)
      rw [Nesting.next, h, if_neg Bool.false_ne_true, hne, if_neg Bool.false_ne_true]
      split
      · split
        · rfl
        · exact h
      · split
        · rfl
        · split
          · rfl
          · split
            · rfl
            · exact h

theorem along_spaces {gap : List Char} (h : Spaces gap) : ({} : Nesting).along gap = {} := by
  induction gap with
  | nil => rfl
  | cons c gap ih =>
      obtain ⟨hc, hgap⟩ := List.forall_mem_cons.1 h
      rw [along_cons, next_space hc, ih hgap]

end Nesting

/-! ## Texts without separators -/

section Whole

variable {isSeparator : Char → Bool}

/-- No separator stands at the top level of the text, for a splitter that comes to it. -/
def Whole (isSeparator : Char → Bool) (s : Nesting) (cs : List Char) : Prop :=
  piecesFrom isSeparator s cs = [cs]

instance (s : Nesting) (cs : List Char) : Decidable (Whole isSeparator s cs) :=
  inferInstanceAs (Decidable (_ = _))

theorem whole_cons_iff {s : Nesting} {c : Char} {cs : List Char} :
    Whole isSeparator s (c :: cs) ↔
      (s.isTop && isSeparator c) = false ∧ Whole isSeparator (s.next c) cs := by
  rw [Whole, piecesFrom]
  cases htop : s.isTop && isSeparator c with
  | true => simp
  | false =>
      rw [if_neg (by simp), Whole]
      cases hpieces : piecesFrom isSeparator (s.next c) cs with
      | nil => exact absurd hpieces (piecesFrom_ne_nil _ _)
      | cons p ps => simp [consFirst]

theorem whole_append_iff {s : Nesting} {a b : List Char} :
    Whole isSeparator s (a ++ b) ↔ Whole isSeparator s a ∧ Whole isSeparator (s.along a) b := by
  induction a generalizing s with
  | nil => exact ⟨fun h => ⟨rfl, h⟩, And.right⟩
  | cons c a ih => rw [List.cons_append, whole_cons_iff, ih, whole_cons_iff, and_assoc]; rfl

/-- What has no separators joins the piece behind it. -/
theorem piecesFrom_append_of_whole {s : Nesting} {a : List Char} (h : Whole isSeparator s a)
    (b : List Char) :
    ∃ p ps, piecesFrom isSeparator (s.along a) b = p :: ps ∧
      piecesFrom isSeparator s (a ++ b) = (a ++ p) :: ps := by
  induction a generalizing s with
  | nil =>
      obtain ⟨p, ps, hpieces⟩ := List.exists_cons_of_ne_nil (piecesFrom_ne_nil s b)
      exact ⟨p, ps, hpieces, hpieces⟩
  | cons c a ih =>
      obtain ⟨hc, ha⟩ := whole_cons_iff.1 h
      obtain ⟨p, ps, hpieces, happend⟩ := ih ha
      refine ⟨p, ps, hpieces, ?_⟩
      rw [List.cons_append, piecesFrom, hc, happend]
      rfl

/-- A text has no separators at the top level, or there is a first of them. -/
theorem whole_or_cut (isSeparator : Char → Bool) (s : Nesting) (cs : List Char) :
    Whole isSeparator s cs ∨ ∃ a c b, cs = a ++ c :: b ∧ Whole isSeparator s a ∧
      s.along a = {} ∧ isSeparator c = true := by
  induction cs generalizing s with
  | nil => exact .inl rfl
  | cons x cs ih =>
      cases htop : s.isTop && isSeparator x with
      | true =>
          rw [Bool.and_eq_true] at htop
          exact .inr ⟨[], x, cs, rfl, rfl, Nesting.eq_top htop.1, htop.2⟩
      | false =>
          rcases ih (s.next x) with hwhole | ⟨a, c, b, rfl, hwhole, halong, hc⟩
          · exact .inl (whole_cons_iff.2 ⟨htop, hwhole⟩)
          · exact .inr ⟨x :: a, c, b, rfl, whole_cons_iff.2 ⟨htop, hwhole⟩, halong, hc⟩

end Whole

/-! ## Levels -/

/-- A way to split a value, and to put it together. -/
structure Level where
  /-- What separates pieces. -/
  isSeparator : Char → Bool
  /-- The separator that is written. -/
  separator : Char
  /-- What is written behind it. -/
  gap : List Char
  /-- The separator that is written separates. -/
  isSeparator_separator : isSeparator separator = true
  /-- Separators open nothing. -/
  next_of_isSeparator : ∀ c, isSeparator c = true → ({} : Nesting).next c = {}
  /-- Spaces are written behind it. -/
  spaces_gap : Spaces gap
  /-- They do not separate. -/
  whole_gap : Whole isSeparator {} gap

namespace Level

/-- A value is split into components. -/
def component : Level where
  isSeparator := isSpace
  separator := ' '
  gap := []
  isSeparator_separator := by decide
  next_of_isSeparator := fun _ => next_space
  spaces_gap := Text.spaces_nil
  whole_gap := rfl

/-- A value is split into layers. -/
def layer : Level where
  isSeparator := (· == ',')
  separator := ','
  gap := [' ']
  isSeparator_separator := rfl
  next_of_isSeparator := by
    intro c hc
    rw [beq_iff_eq.1 hc]
    rfl
  spaces_gap := by
    intro c hc
    rw [List.mem_singleton.1 hc]
    decide
  whole_gap := by decide

variable (level : Level)

/-- What is written between two pieces. -/
def glue : List Char := level.separator :: level.gap

/-- The pieces of a text. -/
def split (cs : List Char) : List (List Char) := splitTopLevel level.isSeparator cs

/-- The text of pieces that are put together. -/
def join : List (List Char) → List Char
  | [] => []
  | [p] => p
  | p :: q :: ps => p ++ (level.glue ++ join (q :: ps))

variable {level}

theorem join_cons {p : List Char} {ps : List (List Char)} (h : ps ≠ []) :
    level.join (p :: ps) = p ++ (level.glue ++ level.join ps) := by
  cases ps with
  | nil => exact absurd rfl h
  | cons q ps => rfl

theorem join_append {ps qs : List (List Char)} (hps : ps ≠ []) (hqs : qs ≠ []) :
    level.join (ps ++ qs) = level.join ps ++ (level.glue ++ level.join qs) := by
  induction ps with
  | nil => exact absurd rfl hps
  | cons p ps ih =>
      cases ps with
      | nil => exact join_cons hqs
      | cons q ps =>
          have hrest := ih (List.cons_ne_nil q ps)
          rw [List.cons_append, join_cons (by simp), hrest, join_cons (List.cons_ne_nil q ps)]
          simp

/-- Behind a text at rest, what is written between two pieces leaves nothing open. -/
theorem along_glue {s : Nesting} (h : s.Rests) : s.along level.glue = {} := by
  rw [glue, Nesting.along_cons, h.next (level.next_of_isSeparator _ level.isSeparator_separator),
    Nesting.along_spaces level.spaces_gap]

/-! ### Splitting -/

/-- Splitting cuts at separators of the top level. -/
theorem split_append {a : List Char} (ha : ({} : Nesting).along a = {}) {c : Char}
    (hc : level.isSeparator c = true) (b : List Char) :
    level.split (a ++ c :: b) = level.split a ++ level.split b := by
  rw [split, splitTopLevel, piecesFrom_append level.next_of_isSeparator ha hc, List.map_append,
    List.filter_append]
  rfl

theorem split_of_whole {cs : List Char} (h : Whole level.isSeparator {} cs) :
    level.split cs = if trim cs = [] then [] else [trim cs] := by
  have hpieces : piecesFrom level.isSeparator {} cs = [cs] := h
  rw [split, splitTopLevel, hpieces, List.map_singleton]
  split
  · next hnil => rw [hnil]; rfl
  · next hne => rw [List.filter_cons_of_pos (by simpa using hne), List.filter_nil]

/-- The only piece of a text without separators is the text without the spaces at its ends. -/
theorem eq_trim_of_mem_split {cs p : List Char} (h : Whole level.isSeparator {} cs)
    (hp : p ∈ level.split cs) : p = trim cs := by
  rw [split_of_whole h] at hp
  split at hp
  · cases hp
  · exact List.mem_singleton.1 hp

/-- What is written behind a separator is no part of a piece. -/
theorem split_gap (cs : List Char) : level.split (level.gap ++ cs) = level.split cs := by
  obtain ⟨p, ps, hpieces, happend⟩ := piecesFrom_append_of_whole level.whole_gap cs
  rw [Nesting.along_spaces level.spaces_gap] at hpieces
  have htrim : trim (level.gap ++ p) = trim p := by
    have hspaces := Text.trim_spaces level.spaces_gap Text.spaces_nil p
    rwa [List.append_nil] at hspaces
  rw [split, splitTopLevel, happend, List.map_cons, htrim, split, splitTopLevel, hpieces,
    List.map_cons]

variable (level) in
/-- To prove something of all texts, cut them at their first separators. -/
theorem induction_on {motive : List Char → Prop} (cs : List Char)
    (whole : ∀ cs, Whole level.isSeparator {} cs → motive cs)
    (cut : ∀ a c b, Whole level.isSeparator {} a → ({} : Nesting).along a = {} →
      level.isSeparator c = true → motive b → motive (a ++ c :: b)) : motive cs := by
  induction hlength : cs.length using Nat.strongRecOn generalizing cs with
  | ind n ih =>
      rcases whole_or_cut level.isSeparator {} cs with
        hwhole | ⟨a, c, b, rfl, hwhole, halong, hc⟩
      · exact whole cs hwhole
      · refine cut a c b hwhole halong hc (ih b.length ?_ b rfl)
        rw [← hlength, List.length_append, List.length_cons]
        omega

/-! ### Pieces -/

variable (level) in
/-- A text that can be a piece. -/
structure IsPiece (p : List Char) : Prop where
  /-- No space is at either end. -/
  trimmed : Trimmed p
  /-- It is not empty. -/
  ne_nil : p ≠ []
  /-- It has no separators. -/
  whole : Whole level.isSeparator {} p

instance (p : List Char) : Decidable (level.IsPiece p) :=
  decidable_of_iff (Trimmed p ∧ p ≠ [] ∧ Whole level.isSeparator {} p)
    ⟨fun h => ⟨h.1, h.2.1, h.2.2⟩, fun h => ⟨h.trimmed, h.ne_nil, h.whole⟩⟩

variable (level) in
/-- Pieces that can be put together: only the last of them may leave something open, apart from a
backslash. -/
structure Line (ps : List (List Char)) : Prop where
  /-- They are pieces. -/
  isPiece : ∀ p ∈ ps, level.IsPiece p
  /-- They are at rest where another piece follows. -/
  rests : ps.Pairwise fun p _ => (({} : Nesting).along p).Rests

theorem IsPiece.trim_eq {p : List Char} (h : level.IsPiece p) : trim p = p :=
  Text.trim_eq_self_iff.2 h.trimmed

theorem IsPiece.split_eq {p : List Char} (h : level.IsPiece p) : level.split p = [p] := by
  rw [split_of_whole h.whole, h.trim_eq, if_neg h.ne_nil]

/-- A piece starts with a character that neither is a space nor separates. -/
theorem IsPiece.exists_cons {p : List Char} (h : level.IsPiece p) :
    ∃ c cs, p = c :: cs ∧ isSpace c = false ∧ level.isSeparator c = false := by
  cases p with
  | nil => exact absurd rfl h.ne_nil
  | cons c cs => exact ⟨c, cs, rfl, h.trimmed.1, (whole_cons_iff.1 h.whole).1⟩

theorem line_nil : level.Line [] := ⟨fun _ h => absurd h List.not_mem_nil, .nil⟩

theorem line_cons_iff {p : List Char} {ps : List (List Char)} :
    level.Line (p :: ps) ↔
      level.IsPiece p ∧ (ps ≠ [] → (({} : Nesting).along p).Rests) ∧ level.Line ps := by
  constructor
  · rintro ⟨hpieces, hrests⟩
    obtain ⟨hp, hps⟩ := List.forall_mem_cons.1 hpieces
    obtain ⟨hrest, hrests⟩ := List.pairwise_cons.1 hrests
    refine ⟨hp, fun hne => ?_, hps, hrests⟩
    obtain ⟨q, qs, rfl⟩ := List.exists_cons_of_ne_nil hne
    exact hrest q List.mem_cons_self
  · rintro ⟨hp, hrest, hps⟩
    refine ⟨List.forall_mem_cons.2 ⟨hp, hps.isPiece⟩, List.pairwise_cons.2 ⟨?_, hps.rests⟩⟩
    exact fun q hq => hrest (List.ne_nil_of_mem hq)

theorem line_append_iff {ps qs : List (List Char)} :
    level.Line (ps ++ qs) ↔
      level.Line ps ∧ level.Line qs ∧ (qs ≠ [] → ∀ p ∈ ps, (({} : Nesting).along p).Rests) := by
  constructor
  · rintro ⟨hpieces, hrests⟩
    obtain ⟨hps, hqs⟩ := List.forall_mem_append.1 hpieces
    obtain ⟨hps', hqs', hrest⟩ := List.pairwise_append.1 hrests
    refine ⟨⟨hps, hps'⟩, ⟨hqs, hqs'⟩, fun hne p hp => ?_⟩
    obtain ⟨q, rest, rfl⟩ := List.exists_cons_of_ne_nil hne
    exact hrest p hp q List.mem_cons_self
  · rintro ⟨hps, hqs, hrest⟩
    refine ⟨List.forall_mem_append.2 ⟨hps.isPiece, hqs.isPiece⟩,
      List.pairwise_append.2 ⟨hps.rests, hqs.rests, fun p hp q hq => ?_⟩⟩
    exact hrest (List.ne_nil_of_mem hq) p hp

/-- Trimming a text brings no separators. -/
theorem whole_trim {isSeparator : Char → Bool} {cs : List Char} (h : Whole isSeparator {} cs) :
    Whole isSeparator {} (trim cs) := by
  obtain ⟨a, b, htext, ha, -, -⟩ := Text.exists_trim cs
  rw [htext, List.append_assoc, whole_append_iff, Nesting.along_spaces ha, whole_append_iff] at h
  exact h.2.1

/-- What trimming leaves of a text without separators is a piece, if it is anything. -/
theorem isPiece_trim {cs : List Char} (h : Whole level.isSeparator {} cs) (hne : trim cs ≠ []) :
    level.IsPiece (trim cs) := ⟨Text.trimmed_trim cs, hne, whole_trim h⟩

/-- What trimming leaves of a text is as open as the text, apart from a backslash. -/
theorem rests_trim {cs : List Char} (h : (({} : Nesting).along cs).Rests) :
    (({} : Nesting).along (trim cs)).Rests := by
  obtain ⟨a, b, htext, ha, hb, -⟩ := Text.exists_trim cs
  rw [htext, List.append_assoc, Nesting.along_append, Nesting.along_spaces ha,
    Nesting.along_append] at h
  exact Nesting.rests_of_along (Nesting.sound_top.along _) hb h

variable (level) in
/-- The pieces of a text can be put together. -/
theorem line_split (cs : List Char) : level.Line (level.split cs) := by
  have hone : ∀ cs, Whole level.isSeparator {} cs → level.Line (level.split cs) := by
    intro cs hwhole
    rw [split_of_whole hwhole]
    split
    · exact line_nil
    · next hne =>
        exact line_cons_iff.2 ⟨isPiece_trim hwhole hne, fun h => absurd rfl h, line_nil⟩
  induction cs using level.induction_on with
  | whole cs hwhole => exact hone cs hwhole
  | cut a c b hwhole halong hc ih =>
      rw [split_append halong hc]
      refine line_append_iff.2 ⟨hone a hwhole, ih, fun _ p hp => ?_⟩
      rw [eq_trim_of_mem_split hwhole hp]
      exact rests_trim (by rw [halong]; exact Nesting.rests_top)

/-- A text at rest has pieces at rest. -/
theorem rests_of_mem_split {cs : List Char} (h : (({} : Nesting).along cs).Rests) :
    ∀ p ∈ level.split cs, (({} : Nesting).along p).Rests := by
  have hone : ∀ cs, Whole level.isSeparator {} cs → (({} : Nesting).along cs).Rests →
      ∀ p ∈ level.split cs, (({} : Nesting).along p).Rests := by
    intro cs hwhole hrests p hp
    rw [eq_trim_of_mem_split hwhole hp]
    exact rests_trim hrests
  induction cs using level.induction_on with
  | whole cs hwhole => exact hone cs hwhole h
  | cut a c b hwhole halong hc ih =>
      rw [Nesting.along_append, halong, Nesting.along_cons, level.next_of_isSeparator c hc] at h
      rw [split_append halong hc]
      refine List.forall_mem_append.2 ⟨hone a hwhole ?_, ih h⟩
      rw [halong]
      exact Nesting.rests_top

/-- Where a text has no separators of another level, its pieces have none. -/
theorem whole_of_mem_split {isSeparator : Char → Bool} {cs : List Char}
    (h : Whole isSeparator {} cs) : ∀ p ∈ level.split cs, Whole isSeparator {} p := by
  have hone : ∀ cs, Whole level.isSeparator {} cs → Whole isSeparator {} cs →
      ∀ p ∈ level.split cs, Whole isSeparator {} p := by
    intro cs hwhole hother p hp
    rw [eq_trim_of_mem_split hwhole hp]
    exact whole_trim hother
  induction cs using level.induction_on with
  | whole cs hwhole => exact hone cs hwhole h
  | cut a c b hwhole halong hc ih =>
      obtain ⟨ha, hb⟩ := whole_append_iff.1 h
      rw [halong, whole_cons_iff, level.next_of_isSeparator c hc] at hb
      rw [split_append halong hc]
      exact List.forall_mem_append.2 ⟨hone a hwhole ha, ih hb.2⟩

/-! ### Splitting what was put together -/

variable (level) in
/-- Splitting the text and putting it together changes nothing, and only the last piece leaves anything
open. -/
structure Laid (cs : List Char) : Prop where
  /-- The pieces that are found make the text. -/
  join_split : level.join (level.split cs) = cs
  /-- They leave nothing open where another piece follows. -/
  closed : (level.split cs).Pairwise fun p _ => ({} : Nesting).along p = {}

theorem Line.join_ne_nil {ps : List (List Char)} (h : level.Line ps) (hne : ps ≠ []) :
    ∃ c cs, level.join ps = c :: cs ∧ isSpace c = false ∧ level.isSeparator c = false := by
  cases ps with
  | nil => exact absurd rfl hne
  | cons p ps =>
      obtain ⟨c, cs, rfl, hspace, hseparator⟩ := (h.isPiece p List.mem_cons_self).exists_cons
      cases ps with
      | nil => exact ⟨c, cs, rfl, hspace, hseparator⟩
      | cons q ps => exact ⟨c, _, rfl, hspace, hseparator⟩

/-- Behind a piece that leaves nothing open, the separator separates. -/
theorem IsPiece.split_glue {p : List Char} (h : level.IsPiece p)
    (hclosed : ({} : Nesting).along p = {}) (cs : List Char) :
    level.split (p ++ (level.glue ++ cs)) = p :: level.split cs := by
  rw [glue, List.cons_append, split_append hclosed level.isSeparator_separator, h.split_eq, split_gap]
  rfl

/-- Behind a backslash, the separator and the next piece belong to the piece. -/
theorem IsPiece.split_glue_escaped {p : List Char} (h : level.IsPiece p)
    (hescaped : ({} : Nesting).along p = { escaped := true }) {c : Char} (cs : List Char)
    (hspace : isSpace c = false) (hseparator : level.isSeparator c = false) :
    ∃ q qs, level.split (c :: cs) = q :: qs ∧
      level.split (p ++ (level.glue ++ c :: cs)) = (p ++ (level.glue ++ q)) :: qs := by
  have hrests : ({ escaped := true } : Nesting).Rests := ⟨rfl, rfl⟩
  have hwhole : Whole level.isSeparator {} (p ++ level.glue) := by
    refine whole_append_iff.2 ⟨h.whole, ?_⟩
    rw [hescaped, glue, whole_cons_iff]
    exact ⟨rfl, level.whole_gap⟩
  have halong : ({} : Nesting).along (p ++ level.glue) = {} := by
    rw [Nesting.along_append, hescaped, along_glue hrests]
  obtain ⟨q, qs, hpieces, happend⟩ := piecesFrom_append_of_whole hwhole (c :: cs)
  rw [halong] at hpieces
  -- The next piece starts with `c`, so that nothing is trimmed between the two.
  have hq : ∃ q', q = c :: q' := by
    rw [piecesFrom, hseparator, Bool.and_false] at hpieces
    cases hrest : piecesFrom level.isSeparator (Nesting.next {} c) cs with
    | nil => exact absurd hrest (piecesFrom_ne_nil _ _)
    | cons q' qs' =>
        rw [hrest] at hpieces
        exact ⟨q', (List.cons.inj hpieces).1.symm⟩
  obtain ⟨q', rfl⟩ := hq
  have hne : trim (c :: q') ≠ [] := Text.trim_ne_nil List.mem_cons_self hspace
  have htrim : trim (p ++ (level.glue ++ c :: q')) = p ++ (level.glue ++ trim (c :: q')) :=
    Text.trim_append h.trimmed h.ne_nil hspace (List.cons_ne_nil c q')
  refine ⟨trim (c :: q'), ((qs.map trim).filter fun piece => !piece.isEmpty), ?_, ?_⟩
  · rw [split, splitTopLevel, hpieces, List.map_cons,
      List.filter_cons_of_pos (by simpa using hne)]
  · rw [← List.append_assoc, split, splitTopLevel, happend, List.map_cons, List.append_assoc, htrim,
      List.filter_cons_of_pos (by simp [h.ne_nil])]

/-- Pieces that are put together are laid out. -/
theorem Line.laid {ps : List (List Char)} (h : level.Line ps) : level.Laid (level.join ps) := by
  induction ps with
  | nil => exact ⟨rfl, .nil⟩
  | cons p ps ih =>
      obtain ⟨hp, hrests, hps⟩ := line_cons_iff.1 h
      by_cases hnil : ps = []
      · subst hnil
        refine ⟨?_, ?_⟩
        · rw [join, hp.split_eq, join]
        · rw [join, hp.split_eq]
          exact List.pairwise_singleton _ p
      obtain ⟨c, cs, hjoin, hspace, hseparator⟩ := hps.join_ne_nil hnil
      obtain ⟨hsame, hclosed⟩ := ih hps
      rw [join_cons hnil]
      rw [hjoin] at hsame hclosed ⊢
      rcases (hrests hnil).eq with htop | hescaped
      · have hne : level.split (c :: cs) ≠ [] := by
          intro hempty
          rw [hempty] at hsame
          cases hsame
        refine ⟨?_, ?_⟩
        · rw [hp.split_glue htop, join_cons hne, hsame]
        · rw [hp.split_glue htop]
          exact List.pairwise_cons.2 ⟨fun _ _ => htop, hclosed⟩
      · obtain ⟨q, qs, hsplit, hall⟩ := hp.split_glue_escaped hescaped cs hspace hseparator
        rw [hsplit] at hsame hclosed
        refine ⟨?_, ?_⟩
        · rw [hall, ← hsame]
          cases qs with
          | nil => rfl
          | cons q' qs => simp [join]
        · rw [hall]
          obtain ⟨hfirst, hothers⟩ := List.pairwise_cons.1 hclosed
          refine List.pairwise_cons.2 ⟨fun q' hq' => ?_, hothers⟩
          rw [Nesting.along_append, hescaped, Nesting.along_append, along_glue ⟨rfl, rfl⟩,
            hfirst q' hq']

/-- What holds of pieces that are put together, and of two pieces made one by a backslash, holds of the
pieces that are found. -/
theorem Line.forall_mem_split {motive : List Char → Prop}
    (merge : ∀ p q, level.IsPiece p → (({} : Nesting).along p).Rests → motive p → motive q →
      motive (p ++ (level.glue ++ q)))
    {ps : List (List Char)} (h : level.Line ps) (hps : ∀ p ∈ ps, motive p) :
    ∀ q ∈ level.split (level.join ps), motive q := by
  induction ps with
  | nil => exact fun q hq => nomatch hq
  | cons p ps ih =>
      obtain ⟨hp, hrests, hline⟩ := line_cons_iff.1 h
      obtain ⟨hmotive, hmotives⟩ := List.forall_mem_cons.1 hps
      by_cases hnil : ps = []
      · subst hnil
        rw [join, hp.split_eq]
        exact List.forall_mem_singleton.2 hmotive
      obtain ⟨c, cs, hjoin, hspace, hseparator⟩ := hline.join_ne_nil hnil
      have hfound := ih hline hmotives
      rw [join_cons hnil]
      rw [hjoin] at hfound ⊢
      rcases (hrests hnil).eq with htop | hescaped
      · rw [hp.split_glue htop]
        exact List.forall_mem_cons.2 ⟨hmotive, hfound⟩
      · obtain ⟨q, qs, hsplit, hall⟩ := hp.split_glue_escaped hescaped cs hspace hseparator
        rw [hsplit] at hfound
        obtain ⟨hq, hqs⟩ := List.forall_mem_cons.1 hfound
        rw [hall]
        exact List.forall_mem_cons.2 ⟨merge p q hp (hrests hnil) hmotive hq, hqs⟩

/-- Pieces with all closed between them are found again. -/
theorem Line.split_join {ps : List (List Char)} (h : level.Line ps)
    (hclosed : ps.Pairwise fun p _ => ({} : Nesting).along p = {}) :
    level.split (level.join ps) = ps := by
  induction ps with
  | nil => rfl
  | cons p ps ih =>
      obtain ⟨hp, -, hline⟩ := line_cons_iff.1 h
      obtain ⟨hfirst, hothers⟩ := List.pairwise_cons.1 hclosed
      cases ps with
      | nil => exact hp.split_eq
      | cons q ps =>
          rw [join_cons (List.cons_ne_nil q ps), hp.split_glue (hfirst q List.mem_cons_self),
            ih hline hothers]

/-- What is open behind pieces that are put together is open behind the last of them. -/
theorem Line.along_join {ps : List (List Char)} {p : List Char} (h : level.Line (ps ++ [p])) :
    ({} : Nesting).along (level.join (ps ++ [p])) = ({} : Nesting).along p := by
  induction ps with
  | nil => rfl
  | cons q ps ih =>
      have hne : ps ++ [p] ≠ [] := by simp
      obtain ⟨-, hrests, hline⟩ := line_cons_iff.1 h
      rw [List.cons_append, join_cons hne, Nesting.along_append, Nesting.along_append,
        along_glue (hrests hne), ih hline]

/-- What stands behind the last piece stands behind the text. -/
theorem join_concat_append (ps : List (List Char)) (p cs : List Char) :
    level.join (ps ++ [p ++ cs]) = level.join (ps ++ [p]) ++ cs := by
  induction ps with
  | nil => rfl
  | cons q ps ih =>
      rw [List.cons_append, join_cons (by simp), ih, List.cons_append, join_cons (by simp)]
      simp

/-! ### Texts without backslashes -/

theorem mem_of_mem_split {cs p : List Char} (hp : p ∈ level.split cs) {c : Char} (hc : c ∈ p) :
    c ∈ cs := by
  have hone : ∀ cs, Whole level.isSeparator {} cs → p ∈ level.split cs → c ∈ cs := by
    intro cs hwhole hp
    rw [eq_trim_of_mem_split hwhole hp] at hc
    exact (Text.trim_slice cs).subset hc
  induction cs using level.induction_on with
  | whole cs hwhole => exact hone cs hwhole hp
  | cut a x b hwhole halong hx ih =>
      rw [split_append halong hx] at hp
      rcases List.mem_append.1 hp with hp | hp
      · exact List.mem_append_left _ (hone a hwhole hp)
      · exact List.mem_append_right _ (List.mem_cons_of_mem x (ih hp))

theorem mem_of_mem_join {ps : List (List Char)} {c : Char} (h : c ∈ level.join ps) :
    c ∈ level.glue ∨ ∃ p ∈ ps, c ∈ p := by
  induction ps with
  | nil => cases h
  | cons p ps ih =>
      by_cases hnil : ps = []
      · rw [hnil] at h
        exact .inr ⟨p, List.mem_cons_self, h⟩
      · rw [join_cons hnil] at h
        rcases List.mem_append.1 h with h | h
        · exact .inr ⟨p, List.mem_cons_self, h⟩
        rcases List.mem_append.1 h with h | h
        · exact .inl h
        · rcases ih h with h | ⟨q, hq, h⟩
          · exact .inl h
          · exact .inr ⟨q, List.mem_cons_of_mem p hq, h⟩

/-- A text at rest is closed if it has no backslash. -/
theorem closed_of_plain {cs : List Char} (hplain : '\\' ∉ cs)
    (h : (({} : Nesting).along cs).Rests) : ({} : Nesting).along cs = {} := by
  rcases h.eq with htop | hescaped
  · exact htop
  · have hnot := Nesting.not_escaped_along hplain (s := {}) rfl
    rw [hescaped] at hnot
    cases hnot

end Level

/-! ## Components and layers -/

theorem map_toList_components (value : String) :
    (components value).map String.toList = Level.component.split value.toList := by
  rw [components, List.map_map]
  exact (List.map_congr_left fun _ _ => String.toList_ofList).trans (List.map_id _)

theorem map_toList_layers (value : String) :
    (layers value).map String.toList = Level.layer.split value.toList := by
  rw [layers, List.map_map]
  exact (List.map_congr_left fun _ _ => String.toList_ofList).trans (List.map_id _)

theorem toList_mem_split_of_mem_components {value w : String} (h : w ∈ components value) :
    w.toList ∈ Level.component.split value.toList :=
  map_toList_components value ▸ List.mem_map_of_mem h

theorem toList_mem_split_of_mem_layers {value layer : String} (h : layer ∈ layers value) :
    layer.toList ∈ Level.layer.split value.toList :=
  map_toList_layers value ▸ List.mem_map_of_mem h

theorem toList_join {level : Level} {glue : String} (hglue : glue.toList = level.glue)
    (pieces : List String) :
    (Text.join glue pieces).toList = level.join (pieces.map String.toList) := by
  induction pieces with
  | nil => rfl
  | cons p ps ih =>
      cases ps with
      | nil => rfl
      | cons q ps =>
          rw [List.map_cons, Level.join_cons (by simp), ← ih, ← hglue]
          simp [Text.join]

theorem toList_join_components (pieces : List String) :
    (Text.join " " pieces).toList = Level.component.join (pieces.map String.toList) :=
  toList_join rfl pieces

theorem toList_join_layers (pieces : List String) :
    (Text.join ", " pieces).toList = Level.layer.join (pieces.map String.toList) :=
  toList_join rfl pieces

namespace Level

/-- Components without commas make a layer. -/
theorem Line.isPiece_layer {ps : List (List Char)} (h : component.Line ps) (hne : ps ≠ [])
    (hcomma : ∀ p ∈ ps, Whole layer.isSeparator {} p) : layer.IsPiece (component.join ps) := by
  induction ps with
  | nil => exact absurd rfl hne
  | cons p ps ih =>
      obtain ⟨hp, hrests, hline⟩ := line_cons_iff.1 h
      obtain ⟨hwhole, hcomma⟩ := List.forall_mem_cons.1 hcomma
      by_cases hnil : ps = []
      · rw [hnil]
        exact ⟨hp.trimmed, hp.ne_nil, hwhole⟩
      obtain ⟨htrimmed, hjoin, hrest⟩ := ih hline hnil hcomma
      rw [join_cons hnil]
      refine ⟨hp.trimmed.append htrimmed hp.ne_nil hjoin _, by simp [hp.ne_nil], ?_⟩
      refine whole_append_iff.2 ⟨hwhole, whole_append_iff.2 ⟨?_, ?_⟩⟩
      · rw [glue, whole_cons_iff]
        exact ⟨by rw [Bool.and_eq_false_iff]; exact .inr rfl, rfl⟩
      · rw [along_glue (hrests hnil)]
        exact hrest

/-- A text is written in components that can be put together. -/
def Spaced (cs : List Char) : Prop := ∃ ps, component.Line ps ∧ ps ≠ [] ∧ cs = component.join ps

/-- Two layers made one by a backslash are written in components if both are. -/
theorem Spaced.merge {p q : List Char} (hrests : (({} : Nesting).along p).Rests) (hp : Spaced p)
    (hq : Spaced q) : Spaced (p ++ (layer.glue ++ q)) := by
  obtain ⟨ps, hps, hne, rfl⟩ := hp
  obtain ⟨qs, hqs, hqne, rfl⟩ := hq
  obtain ⟨init, last, rfl⟩ := (List.eq_nil_or_concat' ps).resolve_left hne
  obtain ⟨hinit, hlast, hinitRests⟩ := line_append_iff.1 hps
  have hpiece := hlast.isPiece last (by simp)
  rw [hps.along_join] at hrests
  -- The comma ends the last component of the first layer.
  have hcomma : component.IsPiece (last ++ [',']) := by
    have htrimmed : Trimmed (last ++ ([] ++ [','])) :=
      hpiece.trimmed.append (by decide) hpiece.ne_nil (by simp) []
    exact ⟨htrimmed, by simp, whole_append_iff.2 ⟨hpiece.whole,
      whole_cons_iff.2 ⟨by rw [Bool.and_eq_false_iff]; exact .inr (by decide), rfl⟩⟩⟩
  have hclosed : ({} : Nesting).along (last ++ [',']) = {} := by
    rw [Nesting.along_append]
    exact hrests.next rfl
  have hline : component.Line (init ++ [last ++ [',']]) :=
    line_append_iff.2 ⟨hinit, line_cons_iff.2 ⟨hcomma, fun h => absurd rfl h, line_nil⟩,
      fun _ => hinitRests (by simp)⟩
  refine ⟨(init ++ [last ++ [',']]) ++ qs, line_append_iff.2 ⟨hline, hqs, fun _ w hw => ?_⟩,
    by simp, ?_⟩
  · rcases List.mem_append.1 hw with hw | hw
    · exact hinitRests (by simp) w hw
    · rw [List.mem_singleton.1 hw, hclosed]
      exact Nesting.rests_top
  · rw [join_append (by simp) hqne, join_concat_append]
    simp [glue, layer, component]

end Level

end Stylesheet.Value
