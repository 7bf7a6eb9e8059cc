import Mathlib.Data.List.TakeWhile
import Stylesheet.Text

/-!
# Trimming and slices

A text is *trimmed* when neither of its ends is a space.  Every text is its trimmed middle with
spaces around it (`exists_trim`), and that middle is the only trimmed one (`trim_eq_of_trimmed`).
All that is said of trimming elsewhere comes from these two.

A slice of a text is some of it without gaps, `List.IsInfix`.  Trimming leaves a slice, and a word occurs
in a text when it is a slice of it (`occurs_iff`).
-/

namespace Stylesheet.Text

/-- A text of spaces only. -/
def Spaces (cs : List Char) : Prop := ∀ c ∈ cs, isSpace c = true

/-- A text with no space at either end. -/
def Trimmed (cs : List Char) : Prop := headIs isSpace cs = false ∧ headIs isSpace cs.reverse = false

theorem spaces_nil : Spaces [] := by
  intro c hc
  exact absurd hc (by simp)

theorem Spaces.append {a b : List Char} (ha : Spaces a) (hb : Spaces b) : Spaces (a ++ b) := by
  intro c hc
  rcases List.mem_append.1 hc with h | h
  · exact ha c h
  · exact hb c h

theorem Spaces.reverse {cs : List Char} (h : Spaces cs) : Spaces cs.reverse := by
  intro c hc
  exact h c (List.mem_reverse.1 hc)

theorem trimmed_nil : Trimmed [] := ⟨rfl, rfl⟩

/-- Dropping spaces stops at the first character that is none. -/
theorem dropWhile_of_head {cs : List Char} (h : headIs isSpace cs = false) :
    cs.dropWhile isSpace = cs := by
  cases cs with
  | nil => rfl
  | cons c cs =>
      have hc : isSpace c = false := h
      rw [List.dropWhile_cons_of_neg (by simp [hc])]

theorem headIs_dropWhile (cs : List Char) : headIs isSpace (cs.dropWhile isSpace) = false := by
  induction cs with
  | nil => rfl
  | cons c cs ih =>
      rw [List.dropWhile_cons]
      split
      · exact ih
      · next hc => simpa [headIs] using hc

theorem spaces_takeWhile (cs : List Char) : Spaces (cs.takeWhile isSpace) := by
  intro c hc
  exact List.mem_takeWhile_imp hc

/-- The first character of a text in front of spaces, unless the text is empty. -/
theorem headIs_append_of_ne_nil {p : Char → Bool} {a : List Char} (h : a ≠ []) (b : List Char) :
    headIs p (a ++ b) = headIs p a := by
  cases a with
  | nil => exact absurd rfl h
  | cons c cs => rfl

/-- A text without spaces is trimmed. -/
theorem trimmed_of_plain {cs : List Char} (h : ∀ c ∈ cs, isSpace c = false) : Trimmed cs := by
  have hhead : ∀ {l : List Char}, (∀ c ∈ l, isSpace c = false) → headIs isSpace l = false := by
    intro l hl
    cases l with
    | nil => rfl
    | cons c l => exact hl c List.mem_cons_self
  exact ⟨hhead h, hhead fun c hc => h c (List.mem_reverse.1 hc)⟩

/-- Trimmed texts that are not empty may have anything between them. -/
theorem Trimmed.append {a b : List Char} (ha : Trimmed a) (hb : Trimmed b) (hane : a ≠ [])
    (hbne : b ≠ []) (gap : List Char) : Trimmed (a ++ (gap ++ b)) := by
  constructor
  · rw [headIs_append_of_ne_nil hane]
    exact ha.1
  · rw [List.reverse_append, List.reverse_append, List.append_assoc,
      headIs_append_of_ne_nil (by simpa using hbne)]
    exact hb.2

/-- A trimmed text is what trimming leaves of it with spaces around. -/
theorem trim_eq_of_trimmed {a m b : List Char} (ha : Spaces a) (hm : Trimmed m) (hb : Spaces b) :
    trim (a ++ m ++ b) = m := by
  by_cases hnil : m = []
  · subst hnil
    have hall : (a ++ [] ++ b).dropWhile isSpace = [] := by
      rw [List.append_nil, List.dropWhile_append_of_pos ha, List.dropWhile_eq_nil_iff]
      exact hb
    rw [trim, trimStart, hall]
    rfl
  · have hstart : trimStart (a ++ m ++ b) = m ++ b := by
      rw [trimStart, List.append_assoc, List.dropWhile_append_of_pos ha]
      refine dropWhile_of_head ?_
      rw [headIs_append_of_ne_nil hnil]
      exact hm.1
    rw [trim, hstart, trimEnd, List.reverse_append, List.dropWhile_append_of_pos hb.reverse,
      dropWhile_of_head hm.2, List.reverse_reverse]

/-- Every text is trimmed in the middle, with spaces around. -/
theorem exists_trim (cs : List Char) :
    ∃ a b, cs = a ++ trim cs ++ b ∧ Spaces a ∧ Spaces b ∧ Trimmed (trim cs) := by
  have hstart : cs.takeWhile isSpace ++ trimStart cs = cs := List.takeWhile_append_dropWhile
  have hend : trimEnd (trimStart cs) ++ ((trimStart cs).reverse.takeWhile isSpace).reverse =
      trimStart cs := by
    rw [trimEnd, ← List.reverse_append, List.takeWhile_append_dropWhile, List.reverse_reverse]
  refine ⟨cs.takeWhile isSpace, ((trimStart cs).reverse.takeWhile isSpace).reverse, ?_,
    spaces_takeWhile cs, (spaces_takeWhile _).reverse, ?_, ?_⟩
  · rw [trim, List.append_assoc, hend, hstart]
  · by_cases hnil : trimEnd (trimStart cs) = []
    · rw [trim, hnil]
      rfl
    · rw [trim, ← headIs_append_of_ne_nil hnil, hend]
      exact headIs_dropWhile cs
  · rw [trim, trimEnd, List.reverse_reverse]
    exact headIs_dropWhile _

theorem trimmed_trim (cs : List Char) : Trimmed (trim cs) := by
  obtain ⟨_, _, _, _, _, h⟩ := exists_trim cs
  exact h

theorem trim_eq_self_iff {cs : List Char} : trim cs = cs ↔ Trimmed cs := by
  constructor
  · intro h
    rw [← h]
    exact trimmed_trim cs
  · intro h
    have := trim_eq_of_trimmed spaces_nil h spaces_nil
    simpa using this

@[simp] theorem trim_trim (cs : List Char) : trim (trim cs) = trim cs :=
  trim_eq_self_iff.2 (trimmed_trim cs)

/-- Spaces around a text do not count. -/
theorem trim_spaces {a b : List Char} (ha : Spaces a) (hb : Spaces b) (cs : List Char) :
    trim (a ++ cs ++ b) = trim cs := by
  obtain ⟨a', b', hcs, ha', hb', hm⟩ := exists_trim cs
  have htext : a ++ cs ++ b = (a ++ a') ++ trim cs ++ (b' ++ b) := by
    calc a ++ cs ++ b = a ++ (a' ++ trim cs ++ b') ++ b := by rw [← hcs]
      _ = (a ++ a') ++ trim cs ++ (b' ++ b) := by simp
  rw [htext, trim_eq_of_trimmed (ha.append ha') hm (hb'.append hb)]

/-- A text that starts without spaces ends without them after `trimEnd`. -/
theorem trimEnd_eq_trim {cs : List Char} (h : headIs isSpace cs = false) : trimEnd cs = trim cs := by
  rw [trim, trimStart, dropWhile_of_head h]

theorem trimEnd_append_spaces {cs gap : List Char} (hcs : headIs isSpace cs.reverse = false)
    (hgap : Spaces gap) : trimEnd (cs ++ gap) = cs := by
  rw [trimEnd, List.reverse_append, List.dropWhile_append_of_pos hgap.reverse,
    dropWhile_of_head hcs, List.reverse_reverse]

/-! ## Slices -/

theorem trim_slice (cs : List Char) : trim cs <:+: cs := by
  obtain ⟨before, after, hcs, -⟩ := exists_trim cs
  exact ⟨before, after, hcs.symm⟩

theorem trimEnd_slice (cs : List Char) : trimEnd cs <:+: cs := by
  rw [trimEnd, ← List.reverse_infix, List.reverse_reverse]
  exact (List.dropWhile_suffix _).isInfix

/-- A word occurs in the texts that it is a slice of. -/
theorem occurs_iff {word cs : List Char} : occurs word cs = true ↔ word <:+: cs := by
  induction cs with
  | nil => rw [occurs, List.isEmpty_iff, List.infix_nil]
  | cons c cs ih => rw [occurs, Bool.or_eq_true, ih, List.isPrefixOf_iff_prefix, List.infix_cons_iff]

theorem occurs_eq_false_iff {word cs : List Char} : occurs word cs = false ↔ ¬word <:+: cs := by
  rw [← occurs_iff, Bool.not_eq_true]

/-! ## Classes -/

/-- A class that holds of no character of a list, by trying them. -/
theorem class_eq_false_of_all {p : Char → Bool} {chars : List Char}
    (h : chars.all (fun c => !p c) = true) : ∀ c ∈ chars, p c = false := by
  intro c hc
  simpa using List.all_eq_true.1 h c hc

theorem not_mem_of_class {p : Char → Bool} {chars : List Char}
    (hchars : chars.all (fun c => !p c) = true) {c : Char} (h : p c = true) : c ∉ chars := by
  intro hc
  exact Bool.false_ne_true ((class_eq_false_of_all hchars c hc).symm.trans h)

end Stylesheet.Text
