import Stylesheet.Proofs.MinifiedNames

/-!
# Parts of minified selectors

A part is minified to a part (`minifies_of_readPart`).  A part that ends with a name may take more of the
text than before, if the name ends loose and the text behind it goes on as a name; other parts end with
their own last character (`Reread`).

The reader of nested lists is a parameter.  Of it is asked that it reads minified lists as it should
(`ReadsMinified`).
-/

namespace Stylesheet.Selector

open Stylesheet.Text (headIs isSpace lower trim)

/-! ## Parts that are kept -/

/-- The part means the same after minifying exactly if no branch nested in it loses a gap. -/
def Part.Kept (part shortened : Part) : Prop :=
  shortened.bare = part.bare ↔ part.anyText lossy = false

/-- The branch means the same after minifying exactly if no gap is lost in it. -/
def Branch.Kept (branch shortened : Branch) : Prop :=
  shortened.bare = branch.bare ↔ branch.anyText lossy = false

theorem forall₂_kept_parts {parts shortened : List Part}
    (h : List.Forall₂ Part.Kept parts shortened) :
    bareParts shortened = bareParts parts ↔ anyTextOfParts lossy parts = false := by
  induction h with
  | nil => exact ⟨fun _ => rfl, fun _ => rfl⟩
  | @cons part short _ _ hkept _ ih =>
      have hpart : short.bare = part.bare ↔ part.anyText lossy = false := hkept
      rw [bareParts, bareParts, anyTextOfParts, List.cons.injEq, ih, Bool.or_eq_false_iff, hpart]

theorem forall₂_kept {branches shortened : List Branch}
    (h : List.Forall₂ Branch.Kept branches shortened) :
    bareBranches shortened = bareBranches branches ↔ anyTextOfBranches lossy branches = false := by
  induction h with
  | nil => exact ⟨fun _ => rfl, fun _ => rfl⟩
  | @cons branch short _ _ hkept _ ih =>
      have hbranch : short.bare = branch.bare ↔ branch.anyText lossy = false := hkept
      rw [bareBranches, bareBranches, anyTextOfBranches, List.cons.injEq, ih, Bool.or_eq_false_iff,
        hbranch]

/-- A part without nested branches. -/
def Part.Flat (part : Part) : Prop := ∀ p, part.anyText p = false

theorem Part.Flat.kept {part : Part} (h : part.Flat) : part.Kept part :=
  ⟨fun _ => h _, fun _ => rfl⟩

/-! ## Parts that are read again -/

/-- A reader of nested lists that reads minified lists as it should, up to some length. -/
def ReadsMinified (nested : ListReader) (n : Nat) : Prop :=
  ∀ {inside : List Char} {branches : List Branch}, inside.length < n →
    nested inside = .ok branches → anyTextOfBranches nameSpaced branches = false →
    ∃ shortened, nested (minifiedUpTo (gap false false) inside) = .ok shortened ∧
      List.Forall₂ Branch.Kept branches shortened

/-- How a part is read after minifying. -/
inductive Reread (nested : ListReader) (c : Char) (part : Part)
    (written rest shortened behind : List Char) : Prop where
  /-- It ends with its own last character. -/
  | closed {again : Part} : endsLoose (c :: written) = false →
      readPart nested c (shortened ++ behind) = .ok (again, shortened.length) → part.Kept again →
      Reread nested c part written rest shortened behind
  /-- It ends with a name, which goes on as far as the text behind it does. -/
  | named : headIs goesOn rest = false →
      (∀ more after others, behind = more ++ after → NameAt more after others →
        headIs (· == '(') after = false →
        ∃ again, readPart nested c (shortened ++ behind) = .ok (again, (shortened ++ more).length) ∧
          (others = [] → part.Kept again)) →
      Reread nested c part written rest shortened behind

/-- A part is minified to a part. -/
def Minifies (nested : ListReader) (c : Char) (cs : List Char) (part : Part) (n : Nat) : Prop :=
  ∃ written rest shortened behind, cs = written ++ rest ∧ written.length = n ∧
    minifyFrom (gap false (endsLoose (c :: written))) rest = behind ∧
    minifyFrom (gap false false) (c :: cs) = c :: (shortened ++ behind) ∧
    Reread nested c part written rest shortened behind

section Kinds

variable {nested : ListReader} {c : Char} {cs : List Char} {part : Part} {n : Nat}

/-- A part of one character. -/
theorem minifies_char (hplain : Plain c) (hspace : isSpace c = false) (hcomma : (c == ',') = false)
    (hread : ∀ cs, readPart nested c cs = .ok (part, 0)) (hflat : part.Flat) :
    Minifies nested c cs part 0 := by
  exact ⟨[], cs, [], _, rfl, rfl, rfl, minifyFrom_plain hplain hspace hcomma false cs,
    .closed rfl (hread _) hflat.kept⟩

/-- A class or an id. -/
theorem minifies_marked {mk : String → Part} (hmark : isMark c = true)
    (hread : ∀ cs, readPart nested c cs = do
      let (name, n) ← nameAfter c cs
      return (mk (.ofList name), n))
    (hflat : ∀ name, (mk name).Flat) (h : readPart nested c cs = .ok (part, n))
    (hspaced : spacedName 0 ((c :: cs).dropWhile isMark) = false) :
    Minifies nested c cs part n := by
  rw [hread] at h
  obtain ⟨⟨name, m⟩, hname, hpart⟩ := exists_of_bind_pure h
  cases hpart
  obtain ⟨text, rest, rfl, rfl, hne, hnamene, hat⟩ := nameAt_of_nameAfter hname
  obtain ⟨shortened, -, heq, hmore⟩ := hat.minified_marks [c]
    (List.forall_mem_singleton.2 hmark) hne hspaced rfl
  refine ⟨text, rest, shortened, _, rfl, rfl, rfl, heq, .named hat.stops ?_⟩
  intro more after others hbehind hothers _
  have hall := (hmore more after others hbehind hothers).nameAfter_eq (by simp [hnamene]) c
  refine ⟨mk (.ofList (name ++ others)), ?_, fun hnil => ?_⟩
  · rw [hread, hbehind, ← List.append_assoc, hall]
    rfl
  · rw [hnil, List.append_nil]
    exact (hflat _).kept

theorem minifies_tag (hc : startsTag c = true) (h : readPart nested c cs = .ok (part, n))
    (hspaced : spacedName 0 ((c :: cs).dropWhile isMark) = false) :
    Minifies nested c cs part n := by
  obtain ⟨text, rest, name, rfl, hlength, hat, rfl⟩ := exists_of_readPart_tag hc h
  obtain ⟨shortened, hhead, heq, hmore⟩ := hat.minified_marks [] (by simp) (by simp)
    hspaced rfl
  obtain ⟨shortened, rfl⟩ := List.head?_eq_some_iff.1 hhead
  refine ⟨text, rest, shortened, _, rfl, hlength, rfl, heq, .named hat.stops ?_⟩
  intro more after others hbehind hothers _
  have hall := (hmore more after others hbehind hothers).reads
  refine ⟨.tag (.ofList (lower (name ++ others))), ?_, fun hnil => ?_⟩
  · rw [readPart_tag hc, hbehind, ← List.append_assoc, ← List.cons_append, ← List.cons_append, hall]
    rfl
  · rw [hnil, List.append_nil]
    exact Part.Flat.kept fun _ => rfl

theorem squeeze_minified (s : PreludeState) (inside : List Char) :
    squeeze (.ofList (trim (minifiedUpTo s inside))) = squeeze (.ofList (trim inside)) := by
  refine squeeze_ofList ?_
  rw [filter_trim, filter_trim, filter_minifiedUpTo]

theorem minifies_attribute (h : readPart nested '[' cs = .ok (part, n)) :
    Minifies nested '[' cs part n := by
  rw [readPart] at h
  obtain ⟨inside, hinside, hpart⟩ := exists_of_bind_pure h
  cases hpart
  obtain ⟨rest, rfl, hminified, hread⟩ := untilClose_minifiedUpTo brackets_square hinside
  have hloose : endsLoose ('[' :: (inside ++ [']'])) = false :=
    endsLoose_concat (by decide) (by decide) ('[' :: inside)
  have hkept : (Part.attribute (.ofList (trim inside))).Kept
      (.attribute (.ofList (trim (minifiedUpTo (gap false false) inside)))) := by
    refine ⟨fun _ => rfl, fun _ => ?_⟩
    rw [Part.bare, Part.bare, squeeze_minified]
  refine ⟨inside ++ [']'], rest, minifiedUpTo (gap false false) inside ++ [']'], _, by simp,
    by simp, rfl, ?_, .closed hloose ?_ hkept⟩
  · rw [minifyFrom_plain (by simp [Plain]) (by decide) (by decide), hminified, hloose]
    simp
  · rw [readPart, List.append_assoc, List.singleton_append, hread]
    simp

theorem isBlank_minifiedUpTo (s : PreludeState) (cs : List Char) :
    Text.isBlank (minifiedUpTo s cs) = Text.isBlank cs := by
  have hiff : ∀ l : List Char, Text.isBlank l = true ↔ (l.filter fun c => !isSpace c) = [] := by
    intro l
    simp [Text.isBlank, List.filter_eq_nil_iff]
  rw [Bool.eq_iff_iff, hiff, hiff, filter_minifiedUpTo]

/-- An argument is minified to an argument. -/
theorem exists_argumentPart {nested : ListReader} {name : String} {argument : List Char} {part : Part}
    {n : Nat} (hnested : ReadsMinified nested n) (hlength : argument.length < n)
    (h : argumentPart nested name argument = .ok part) (hspaced : part.anyText nameSpaced = false) :
    ∃ again, argumentPart nested name (minifiedUpTo (gap false false) argument) = .ok again ∧
      part.Kept again := by
  rw [argumentPart] at h ⊢
  split at h
  · next hlist =>
      cases h
      refine ⟨_, if_pos hlist, fun _ => rfl, fun _ => ?_⟩
      rw [Part.bare, Part.bare, Option.map_some, Option.map_some, squeeze_minified]
  next hlist =>
  rw [if_neg hlist, isBlank_minifiedUpTo]
  split at h
  · next hblank =>
      cases h
      exact ⟨_, if_pos hblank, fun _ => rfl, fun _ => rfl⟩
  · next hblank =>
      obtain ⟨branches, hbranches, rfl⟩ := exists_of_bind_pure h
      obtain ⟨shortened, hshortened, hkept⟩ := hnested hlength hbranches hspaced
      refine ⟨.functional name shortened, ?_, ?_⟩
      · rw [if_neg hblank, hshortened]
        rfl
      · have hall := forall₂_kept hkept
        rw [Part.Kept, Part.bare, Part.bare, Part.anyText, Part.functional.injEq, hall]
        simp

/-- A pseudo-class. -/
theorem minifies_pseudo {nested : ListReader} {cs : List Char} {part : Part} {n : Nat}
    (hnested : ReadsMinified nested cs.length) (h : readPart nested ':' cs = .ok (part, n))
    (hspaced : spacedName 0 ((':' :: cs).dropWhile isMark) = false)
    (hinner : part.anyText nameSpaced = false) : Minifies nested ':' cs part n := by
  rw [readPart] at h
  obtain ⟨marks, text, rest, name, rfl, hmarks, hne, hname, hat⟩ := exists_of_readPseudo h
  have hcolons : ∀ c ∈ ':' :: marks, isMark c = true := by
    rcases hmarks with rfl | rfl
    · simp [isMark]
    · simp [isMark]
  rw [readPseudo_eq hmarks hat hname] at h
  rw [← List.cons_append] at hspaced
  obtain ⟨shortened, -, heq, hmore⟩ := hat.minified_marks (':' :: marks) hcolons hne hspaced rfl
  cases hopen : headIs (· == '(') rest with
  | false =>
      rw [readArgument_of_head hopen] at h
      cases h
      refine ⟨marks ++ text, rest, marks ++ shortened, _, (List.append_assoc _ _ _).symm, rfl, rfl, ?_,
        .named hat.stops ?_⟩
      · rw [← List.cons_append, heq, List.cons_append, List.append_assoc]
        rfl
      · intro more after others hbehind hothers hafter
        have hall := hmore more after others hbehind hothers
        refine ⟨.pseudo (.ofList (lower (name ++ others))) none, ?_, fun hnil => ?_⟩
        · rw [readPart, hbehind, List.append_assoc, ← List.append_assoc shortened,
            readPseudo_eq hmarks hall (by simp [hname]), readArgument_of_head hafter,
            List.append_assoc]
        · rw [hnil, List.append_nil]
          exact Part.Flat.kept fun _ => rfl
  | true =>
      cases rest with
      | nil => cases hopen
      | cons c rest =>
          obtain rfl : c = '(' := beq_iff_eq.1 hopen
          obtain ⟨argument, hargument, hpart, rfl⟩ := exists_of_readArgument h
          obtain ⟨after, rfl, hminified, hread⟩ := untilClose_minifiedUpTo brackets_round hargument
          obtain ⟨again, hagain, hkept⟩ :=
            exists_argumentPart hnested (by simp; omega) hpart hinner
          rw [minifyFrom_plain (by simp [Plain]) (by decide) (by decide), hminified] at heq hmore
          have hall := hmore [] _ [] rfl (.stop rfl)
          rw [List.append_nil, List.append_nil] at hall
          have hloose : endsLoose (':' :: (marks ++ text ++ '(' :: (argument ++ [')']))) = false := by
            have hlast := endsLoose_concat (by decide) (by decide : isSpace ')' = false)
              (':' :: (marks ++ text ++ '(' :: argument))
            simpa using hlast
          refine ⟨marks ++ text ++ '(' :: (argument ++ [')']), after,
            marks ++ shortened ++ '(' :: (minifiedUpTo (gap false false) argument ++ [')']), _,
            by simp, by simp; omega, rfl, ?_, .closed hloose ?_ hkept⟩
          · rw [← List.cons_append, heq, hloose]
            simp
          · have htext : readPseudo nested _ = _ := readPseudo_eq hmarks hall hname
            rw [readArgument, hread] at htext
            simp only [bind, Except.bind, hagain] at htext
            rw [readPart, hloose, List.append_assoc (marks ++ shortened), List.append_assoc marks,
              List.cons_append, List.append_assoc, List.singleton_append, htext]
            exact congrArg (fun n => Except.ok (again, n)) (by simp; omega)

/-- Every part is minified to a part. -/
theorem minifies_of_readPart {nested : ListReader} {c : Char} {cs : List Char} {part : Part} {n : Nat}
    (hnested : ReadsMinified nested cs.length) (h : readPart nested c cs = .ok (part, n))
    (hspaced : spacedName 0 ((c :: cs).dropWhile isMark) = false)
    (hinner : part.anyText nameSpaced = false) : Minifies nested c cs part n := by
  have hcases := h
  rw [readPart.eq_def] at hcases
  split at hcases
  · cases hcases
    exact minifies_char (by simp [Plain]) (by decide) (by decide) (fun _ => rfl) fun _ => rfl
  · exact minifies_marked rfl (fun _ => rfl) (fun _ _ => rfl) h hspaced
  · exact minifies_marked rfl (fun _ => rfl) (fun _ _ => rfl) h hspaced
  · exact minifies_attribute h
  · exact minifies_pseudo hnested h hspaced hinner
  · cases hcases
    exact minifies_char (by simp [Plain]) (by decide) (by decide) (fun _ => rfl) fun _ => rfl
  · cases hcases
    exact minifies_char (by simp [Plain]) (by decide) (by decide) (fun _ => rfl) fun _ => rfl
  · cases hcases
  · cases hcases
  · split at hcases
    · next hc => exact minifies_tag hc h hspaced
    · cases hcases

end Kinds

end Stylesheet.Selector
