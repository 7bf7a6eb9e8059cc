import Stylesheet.Proofs.LostGaps
import Stylesheet.Proofs.MinifiedPrelude

/-!
# Names in minified preludes

What is written for a name is read as the same name, and goes on as a name as far as the text behind it
does (`NameAt.minified`).  The text behind it is minified as behind a comma if the name ends loose, and as
at the start of a text if it does not: this is all that is known of the name behind it.
-/

namespace Stylesheet.Selector

open Stylesheet.Text (headIs isHexDigit isSpace)

/-! ## First characters -/

/-- A character that is no space comes out first. -/
theorem exists_minifyFrom_cons {c : Char} (hc : isSpace c = false) (loose : Bool) (cs : List Char) :
    ∃ tail, minifyFrom (gap false loose) (c :: cs) = c :: tail := by
  rw [minifyFrom_gap hc, minifyFrom_cons]
  simp [PreludeState.written, PreludeState.flush, gap, hc]

theorem headIs_minifyFrom {p : Char → Bool} {cs : List Char} (hcs : headIs isSpace cs = false)
    (loose : Bool) : headIs p (minifyFrom (gap false loose) cs) = headIs p cs := by
  cases cs with
  | nil => rfl
  | cons c cs =>
      obtain ⟨tail, htail⟩ := exists_minifyFrom_cons hcs loose cs
      rw [htail]
      rfl

theorem headIs_goesOn_minified {cs : List Char} (h : headIs goesOn cs = false) :
    headIs goesOn (minifyFrom (gap false false) cs) = false := by
  cases cs with
  | nil => rfl
  | cons c cs =>
      cases hc : isSpace c with
      | false => rwa [headIs_minifyFrom (show headIs isSpace (c :: cs) = false from hc)]
      | true =>
          rw [minifyFrom_gap_space hc, minifyFrom_gap_pending]
          cases hblank : Text.isBlank cs with
          | true =>
              rw [minifyFrom_spaces (List.all_eq_true.1 hblank)]
              rfl
          | false => rfl

/-! ## Escapes -/

section Code

variable {digits : List Char} (h : IsCode digits)

include h

theorem IsCode.beq_comma {d : Char} (hd : d ∈ digits) : (d == ',') = false := by
  rw [beq_eq_false_iff_ne]
  rintro rfl
  exact absurd (h.hex ',' hd) (by decide)

/-- Digits behind a backslash come out as they are. -/
theorem IsCode.minifyFrom_eq (loose : Bool) (cs : List Char) :
    minifyFrom (gap false loose) ('\\' :: (digits ++ cs)) =
      '\\' :: (digits ++ minifyFrom (gap false false) cs) := by
  have hdigits : ∀ ds : List Char, (∀ d ∈ ds, d ∈ digits) →
      minifyFrom (gap false false) (ds ++ cs) = ds ++ minifyFrom (gap false false) cs := by
    intro ds hds
    induction ds with
    | nil => rfl
    | cons d ds ih =>
        obtain ⟨hd, hds⟩ := List.forall_mem_cons.1 hds
        rw [List.cons_append, minifyFrom_plain (plain_of_class (by decide) (h.hex d hd))
          (isSpace_of_isHexDigit (h.hex d hd)) (h.beq_comma hd), ih hds, List.cons_append]
  cases digits with
  | nil => exact absurd rfl h.ne_nil
  | cons d digits =>
      have hrest := hdigits digits fun _ hmem => List.mem_cons_of_mem d hmem
      rw [List.cons_append, minifyFrom_backslash rfl, h.beq_comma List.mem_cons_self]
      exact congrArg ('\\' :: d :: ·) hrest

theorem IsCode.endsLoose_eq : endsLoose ('\\' :: digits) = false := by
  have hlast := List.getLast_mem h.ne_nil
  rw [← List.dropLast_append_getLast h.ne_nil, ← List.cons_append]
  exact endsLoose_concat (h.beq_comma hlast) (isSpace_of_isHexDigit (h.hex _ hlast)) _

theorem IsCode.endsLoose_space {c : Char} (hc : isSpace c = true) :
    endsLoose ('\\' :: (digits ++ [c])) = true := by
  have hhex := h.hex _ (List.getLast_mem h.ne_nil)
  rw [← List.dropLast_append_getLast h.ne_nil]
  simp [endsLoose, hc, hhex]

end Code

/-- An escape is minified to an escape of the same character. -/
theorem Escape.exists_minified {escape rest behind : List Char} (h : Escape escape rest)
    (hbehind : minifyFrom (gap false (endsLoose ('\\' :: escape))) rest = behind) (loose : Bool) :
    ∃ shortened, Escape shortened behind ∧
      minifyFrom (gap false loose) ('\\' :: (escape ++ rest)) = '\\' :: (shortened ++ behind) ∧
      escapeValue (shortened ++ behind) = escapeValue (escape ++ rest) := by
  cases h with
  | @single d _ hd =>
      have hloose : endsLoose ['\\', d] = (d == ',') := by simp [endsLoose, isHexDigit, isSpace]
      have hvalue : ∀ cs, escapeValue (d :: cs) = d := fun cs => if_neg (by rw [hd]; decide)
      refine ⟨[d], .single hd, ?_, (hvalue behind).trans (hvalue rest).symm⟩
      rw [hloose] at hbehind
      rw [List.singleton_append, minifyFrom_backslash rfl, ← hbehind]
      rfl
  | code hcode hend hspace =>
      rw [hcode.endsLoose_eq] at hbehind
      have hhead : ∀ p, headIs p behind = headIs p rest := by
        intro p
        rw [← hbehind, headIs_minifyFrom hspace]
      have hends : Ends escape behind := by rwa [Ends, hhead]
      refine ⟨escape, .code hcode hends (by rw [hhead, hspace]), ?_, ?_⟩
      · rw [hcode.minifyFrom_eq, hbehind]
      · rw [hcode.escapeValue_append hends, hcode.escapeValue_append hend]
  | @spaced digits _ c hcode hc =>
      have hvalue : ∀ {d cs}, isSpace d = true →
          escapeValue (digits ++ [d] ++ cs) = escapeValue digits := by
        intro d cs hd
        have hhead : headIs isSpace (d :: cs) = true := hd
        rw [List.append_assoc, List.singleton_append,
          hcode.escapeValue_append (.inr (headIs_hexDigit_of_space hhead))]
      rw [hcode.endsLoose_space hc] at hbehind
      rw [hvalue hc, List.append_assoc, hcode.minifyFrom_eq, List.singleton_append,
        minifyFrom_gap_space hc, minifyFrom_gap_pending, hbehind]
      cases hblank : Text.isBlank rest with
      | true =>
          -- At the end of a text the digits need no space.
          have hnil : behind = [] := by
            rw [← hbehind]
            exact minifyFrom_spaces (List.all_eq_true.1 hblank) false true
          subst hnil
          exact ⟨digits, .code hcode (.inr rfl) rfl, rfl, hcode.escapeValue_append (.inr rfl)⟩
      | false =>
          refine ⟨digits ++ [' '], .spaced hcode (by decide), ?_, hvalue (by decide)⟩
          simp

/-! ## Names -/

/-- A name without spaces is minified to the same name.  What is written behind it may go on as a name, and
is then part of it. -/
theorem NameAt.minified {text rest name : List Char} (h : NameAt text rest name)
    (hspaced : spacedName 0 (text ++ rest) = false) (loose : Bool) :
    ∃ shortened, shortened.head? = text.head? ∧
      minifyFrom (gap false loose) (text ++ rest) =
        shortened ++ minifyFrom (gap false (looseAfter loose text)) rest ∧
      ∀ more behind others, minifyFrom (gap false (looseAfter loose text)) rest = more ++ behind →
        NameAt more behind others → NameAt (shortened ++ more) behind (name ++ others) := by
  induction h generalizing loose with
  | stop => exact ⟨[], rfl, rfl, fun _ _ _ _ hmore => hmore⟩
  | @char c text rest name hchar hat ih =>
      have hhead := (NameAt.char hchar hat).head hspaced
      obtain ⟨hcomma, hspace⟩ := Bool.or_eq_false_iff.1 hhead
      rw [List.cons_append, spacedName_char hchar, hspace] at hspaced
      obtain ⟨shortened, -, heq, hread⟩ := ih hspaced false
      have hloose : looseAfter loose (c :: text) = looseAfter false text := by
        cases text with
        | nil => rfl
        | cons d text => exact endsLoose_append (by simp) (hat.head hspaced) [c]
      refine ⟨c :: shortened, rfl, ?_, fun more behind others heq hmore => ?_⟩
      · rw [List.cons_append, minifyFrom_plain (plain_of_class (by decide) hchar) hspace hcomma, heq,
          hloose, List.cons_append]
      · rw [hloose] at heq
        exact .char hchar (hread more behind others heq hmore)
  | @escape escape text rest name hescape hat ih =>
      rw [List.cons_append, List.append_assoc, spacedName_escape hescape] at hspaced
      obtain ⟨shortened, -, heq, hread⟩ := ih hspaced (endsLoose ('\\' :: escape))
      obtain ⟨first, hfirst, hminified, hvalue⟩ := hescape.exists_minified heq loose
      have hloose : looseAfter loose ('\\' :: (escape ++ text)) =
          looseAfter (endsLoose ('\\' :: escape)) text := by
        cases text with
        | nil => rw [List.append_nil]; rfl
        | cons d text => exact endsLoose_append (by simp) (hat.head hspaced) ('\\' :: escape)
      rw [hloose]
      refine ⟨'\\' :: (first ++ shortened), rfl, ?_, fun more behind others hbehind hmore => ?_⟩
      · rw [List.cons_append, List.append_assoc, hminified, List.cons_append, List.append_assoc]
      · rw [hbehind, ← List.append_assoc shortened] at hfirst hvalue
        have hall := NameAt.escape hfirst (hread more behind others hbehind hmore)
        rw [hvalue] at hall
        rwa [List.cons_append, List.append_assoc]

theorem minifyFrom_marks {marks : List Char} (hmarks : ∀ c ∈ marks, isMark c = true)
    (cs : List Char) :
    minifyFrom (gap false false) (marks ++ cs) = marks ++ minifyFrom (gap false false) cs := by
  induction marks with
  | nil => rfl
  | cons c marks ih =>
      obtain ⟨hc, hmarks⟩ := List.forall_mem_cons.1 hmarks
      have hkinds : c = '.' ∨ c = '#' ∨ c = ':' := by simpa [isMark, or_assoc] using hc
      have hplain : Plain c ∧ isSpace c = false ∧ (c == ',') = false := by
        rcases hkinds with rfl | rfl | rfl
        · exact ⟨by simp [Plain], by decide, by decide⟩
        · exact ⟨by simp [Plain], by decide, by decide⟩
        · exact ⟨by simp [Plain], by decide, by decide⟩
      rw [List.cons_append, minifyFrom_plain hplain.1 hplain.2.1 hplain.2.2, ih hmarks,
        List.cons_append]

/-- A name behind marks, minified. -/
theorem NameAt.minified_marks {text rest name behind : List Char} (h : NameAt text rest name)
    (marks : List Char) (hmarks : ∀ c ∈ marks, isMark c = true) (hne : text ≠ [])
    (hspaced : spacedName 0 ((marks ++ (text ++ rest)).dropWhile isMark) = false)
    (hbehind : minifyFrom (gap false (endsLoose (marks ++ text))) rest = behind) :
    ∃ shortened, shortened.head? = text.head? ∧
      minifyFrom (gap false false) (marks ++ (text ++ rest)) = marks ++ (shortened ++ behind) ∧
      ∀ more after others, behind = more ++ after → NameAt more after others →
        NameAt (shortened ++ more) after (name ++ others) := by
  rw [h.dropWhile_marks hmarks hne] at hspaced
  have hloose : looseAfter false text = endsLoose (marks ++ text) := by
    rw [looseAfter, if_neg (by simpa using hne), endsLoose_append hne (h.head hspaced)]
  obtain ⟨shortened, hhead, heq, hread⟩ := h.minified hspaced false
  rw [hloose, hbehind] at heq hread
  exact ⟨shortened, hhead, by rw [minifyFrom_marks hmarks, heq], hread⟩

end Stylesheet.Selector
