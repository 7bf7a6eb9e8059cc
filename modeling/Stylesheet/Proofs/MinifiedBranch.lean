import Stylesheet.Proofs.MinifiedParts

/-!
# Branches of minified selectors

The two texts of a branch, as it is and minified, are read side by side.  Behind each part, what is known of
the rest is said for both ways in which the part can end (`RestRereads`): tight, when all spaces are there
still, and loose, when the rest may go on as the name at the end of the part.

As long as no gap is lost, the two readings give the same parts.  Each gap that is lost takes its combinator
away, and with it the tag behind it, if there is one, so that in the end there are fewer parts (`Tally`).
-/

namespace Stylesheet.Selector

open Stylesheet.Text (headIs isSpace)

/-! ## Counting parts -/

/-- What minifying does to the parts of a branch: as many are left if no gap is lost, and fewer if one
is. -/
structure Tally (lost : Bool) (parts shortened : List Part) : Prop where
  /-- There are not more. -/
  length_le : shortened.length ≤ parts.length
  /-- There are fewer if a gap is lost. -/
  length_lt : lost = true → shortened.length < parts.length
  /-- There are as many if none is. -/
  kept : lost = false → List.Forall₂ Part.Kept parts shortened

namespace Tally

variable {lost : Bool} {parts shortened : List Part}

theorem nil : Tally false [] [] := ⟨Nat.le_refl 0, fun h => absurd h Bool.false_ne_true, fun _ => .nil⟩

theorem cons (h : Tally lost parts shortened) {part again : Part}
    (hkept : lost = false → part.Kept again) : Tally lost (part :: parts) (again :: shortened) where
  length_le := Nat.succ_le_succ h.length_le
  length_lt hlost := Nat.succ_lt_succ (h.length_lt hlost)
  kept hlost := .cons (hkept hlost) (h.kept hlost)

theorem append (h : Tally lost parts shortened) {front : List Part}
    (hflat : ∀ part ∈ front, part.Flat) : Tally lost (front ++ parts) (front ++ shortened) := by
  induction front with
  | nil => exact h
  | cons part front ih =>
      obtain ⟨hpart, hfront⟩ := List.forall_mem_cons.1 hflat
      exact (ih hfront).cons fun _ => hpart.kept

/-- A part that goes. -/
theorem drop (h : Tally lost parts shortened) (part : Part) : Tally true (part :: parts) shortened where
  length_le := Nat.le_succ_of_le h.length_le
  length_lt _ := Nat.lt_succ_of_le h.length_le
  kept h := absurd h.symm Bool.false_ne_true

end Tally

theorem flat_of_mem_descendantIf {spaced : Bool} {last : Last} {part : Part}
    (h : part ∈ descendantIf spaced last) : part.Flat := by
  rw [eq_of_mem_descendantIf h]
  exact fun _ => rfl

/-! ## Rests -/

/-- How the rest of a branch is read after minifying. -/
structure RestRereads (nested : ListReader) (last : Last) (spaced : Bool) (cs : List Char)
    (parts : List Part) : Prop where
  /-- Behind anything that does not leave spaces loose: all spaces are there still, though some of them
  may have been held back. -/
  tight : ∀ again pending : Bool, spaced = (again || pending) →
    anyPart startsSpaced false spaced 0 cs = false →
    ∃ shortened, readParts nested last again 0 (minifyFrom (gap pending false) cs) = .ok shortened ∧
      Tally (anyPart gapLost false spaced 0 cs) parts shortened
  /-- Behind a name that does: what comes next may be taken for part of it. -/
  loose : last = .simple → spaced = true ∨ headIs goesOn cs = false →
    anyPart startsSpaced true spaced 0 cs = false →
    ∃ more after others shortened, minifyFrom (gap false true) cs = more ++ after ∧
      NameAt more after others ∧ readParts nested .simple false 0 after = .ok shortened ∧
      Tally (anyPart gapLost true spaced 0 cs) parts shortened ∧
      (anyPart gapLost true spaced 0 cs = false → others = [])

/-- How the rest of a branch is read behind a name. -/
theorem RestRereads.behind_name {nested : ListReader} {cs : List Char} {parts : List Part}
    (h : RestRereads nested .simple false cs parts) (hstop : headIs goesOn cs = false) (loose : Bool)
    (hspaced : anyPart startsSpaced loose false 0 cs = false) :
    ∃ more after others shortened, minifyFrom (gap false loose) cs = more ++ after ∧
      NameAt more after others ∧ readParts nested .simple false 0 after = .ok shortened ∧
      Tally (anyPart gapLost loose false 0 cs) parts shortened ∧
      (anyPart gapLost loose false 0 cs = false → others = []) := by
  cases loose with
  | true => exact h.loose rfl (.inr hstop) hspaced
  | false =>
      obtain ⟨shortened, hread, htally⟩ := h.tight false false rfl hspaced
      exact ⟨[], _, [], shortened, rfl, .stop (headIs_goesOn_minified hstop), hread, htally,
        fun _ => rfl⟩

/-- A part and the rest of the branch behind it. -/
theorem RestRereads.behind_part {nested : ListReader} {c : Char} {written rest short behind : List Char}
    {part : Part} {parts : List Part} (h : RestRereads nested .simple false rest parts)
    (hbehind : minifyFrom (gap false (endsLoose (c :: written))) rest = behind)
    (hpart : Reread nested c part written rest short behind)
    (hspaced : anyPart startsSpaced (endsLoose (c :: written)) false 0 rest = false) :
    ∃ again n shortened, readPart nested c (short ++ behind) = .ok (again, n) ∧
      readParts nested .simple false 0 ((short ++ behind).drop n) = .ok shortened ∧
      Tally (anyPart gapLost (endsLoose (c :: written)) false 0 rest) (part :: parts)
        (again :: shortened) := by
  cases hpart with
  | @closed again hloose hread hkept =>
      rw [hloose] at hbehind hspaced ⊢
      obtain ⟨shortened, hrest, htally⟩ := h.tight false false rfl hspaced
      refine ⟨again, short.length, shortened, hread, ?_, htally.cons fun _ => hkept⟩
      rwa [List.drop_left, ← hbehind]
  | named hstop hread =>
      obtain ⟨more, after, others, shortened, heq, hothers, hrest, htally, hnil⟩ :=
        h.behind_name hstop _ hspaced
      rw [hbehind] at heq
      obtain ⟨again, hagain, hkept⟩ := hread more after others heq hothers (head_of_readParts hrest)
      refine ⟨again, (short ++ more).length, shortened, hagain, ?_, htally.cons fun h => hkept (hnil h)⟩
      rwa [heq, ← List.append_assoc, List.drop_left]

/-! ## Steps -/

/-- Spaces that have been held back come out as a space. -/
theorem readParts_flush {nested : ListReader} (last : Last) (again pending : Bool) (cs : List Char) :
    readParts nested last again 0 ((gap pending false).flush ++ cs) =
      readParts nested last (again || pending) 0 cs := by
  cases pending with
  | false => rw [Bool.or_false]; rfl
  | true => rw [Bool.or_true]; exact readParts_space rfl

section Steps

variable {nested : ListReader} {last : Last} {spaced : Bool} {c : Char} {cs : List Char}
  {parts : List Part}

theorem RestRereads.space (hc : isSpace c = true) (h : RestRereads nested last true cs parts) :
    RestRereads nested last spaced (c :: cs) parts where
  tight := by
    intro again pending _ hspaced
    rw [anyPart_space hc] at hspaced ⊢
    rw [minifyFrom_gap_space hc]
    exact h.tight again true (Bool.or_true again).symm hspaced
  loose := by
    intro hlast _ hspaced
    rw [anyPart_space hc] at hspaced ⊢
    rw [minifyFrom_gap_space hc, minifyFrom_gap_comma]
    exact h.loose hlast (.inl rfl) hspaced

theorem RestRereads.combinator {kind : Combinator} (hc : isSpace c = false)
    (hkind : combinator? c = some kind) (h : RestRereads nested .combinator false cs parts) :
    RestRereads nested last spaced (c :: cs) (.combinator kind :: parts) := by
  have hplain : Plain c ∧ (c == ',') = false ∧ goesOn c = false := by
    rcases combinator?_cases hkind with rfl | rfl | rfl
    · exact ⟨by simp [Plain], by decide, by decide⟩
    · exact ⟨by simp [Plain], by decide, by decide⟩
    · exact ⟨by simp [Plain], by decide, by decide⟩
  obtain ⟨hplain, hcomma, hstop⟩ := hplain
  refine ⟨fun again pending _ hspaced => ?_, fun _ _ hspaced => ?_⟩
  · rw [anyPart_combinator hc hkind] at hspaced ⊢
    obtain ⟨shortened, hread, htally⟩ := h.tight false false rfl hspaced
    refine ⟨.combinator kind :: shortened, ?_, htally.cons fun _ => Part.Flat.kept fun _ => rfl⟩
    rw [minifyFrom_gap_plain hplain hc, readParts_flush, hcomma]
    exact readParts_combinator hc hkind hread
  · rw [anyPart_combinator hc hkind] at hspaced ⊢
    obtain ⟨shortened, hread, htally⟩ := h.tight false false rfl hspaced
    rw [minifyFrom_plain hplain hc hcomma]
    exact ⟨[], _, [], .combinator kind :: shortened, rfl, .stop hstop,
      readParts_combinator hc hkind hread, htally.cons fun _ => Part.Flat.kept fun _ => rfl,
      fun _ => rfl⟩

/-- A part, however the rest of the branch behind it is read. -/
theorem RestRereads.exists_part {part : Part} {n : Nat} (hnested : ReadsMinified nested cs.length)
    (hpart : readPart nested c cs = .ok (part, n)) (hinner : part.anyText nameSpaced = false)
    (hname : startsSpaced false false (c :: cs) = false)
    (hspaced : anyPart startsSpaced (endsLoose (c :: cs.take n)) false 0 (cs.drop n) = false)
    (h : RestRereads nested .simple false (cs.drop n) parts) :
    ∃ tail again m shortened, minifyFrom (gap false false) (c :: cs) = c :: tail ∧
      readPart nested c tail = .ok (again, m) ∧
      readParts nested .simple false 0 (tail.drop m) = .ok shortened ∧
      Tally (anyPart gapLost (endsLoose (c :: cs.take n)) false 0 (cs.drop n)) (part :: parts)
        (again :: shortened) := by
  obtain ⟨written, rest, short, behind, rfl, rfl, hbehind, heq, hreread⟩ :=
    minifies_of_readPart hnested hpart hname hinner
  rw [List.take_left, List.drop_left] at hspaced ⊢
  rw [List.drop_left] at h
  obtain ⟨again, m, shortened, hall⟩ := h.behind_part hbehind hreread hspaced
  exact ⟨short ++ behind, again, m, shortened, heq, hall⟩

/-- Behind a name that leaves spaces loose, a tag is taken for part of this name. -/
theorem RestRereads.loose_tag {part : Part} {n : Nat} (htag : startsTag c = true)
    (hpart : readPart nested c cs = .ok (part, n))
    (hname : startsSpaced false false (c :: cs) = false)
    (hspaced : anyPart startsSpaced (endsLoose (c :: cs.take n)) false 0 (cs.drop n) = false)
    (h : RestRereads nested .simple false (cs.drop n) parts) :
    ∃ more after others shortened, minifyFrom (gap false false) (c :: cs) = more ++ after ∧
      NameAt more after others ∧ readParts nested .simple false 0 after = .ok shortened ∧
      Tally true (part :: parts) shortened := by
  obtain ⟨text, rest, name, rfl, rfl, hat, rfl⟩ := exists_of_readPart_tag htag hpart
  rw [List.take_left, List.drop_left] at hspaced
  rw [List.drop_left] at h
  obtain ⟨more, after, others, shortened, hbehind, hothers, hread, htally, -⟩ :=
    h.behind_name hat.stops _ hspaced
  obtain ⟨short, -, heq, hmore⟩ := hat.minified_marks [] (by simp) (by simp) hname rfl
  refine ⟨short ++ more, after, name ++ others, shortened, ?_, hmore _ _ _ hbehind hothers, hread,
    htally.drop _⟩
  rw [List.append_assoc, ← hbehind]
  exact heq

theorem RestRereads.part {part : Part} {n : Nat} (hc : isSpace c = false)
    (hkind : combinator? c = none) (hnested : ReadsMinified nested cs.length)
    (hpart : readPart nested c cs = .ok (part, n)) (hinner : part.anyText nameSpaced = false)
    (h : RestRereads nested .simple false (cs.drop n) parts) :
    RestRereads nested last spaced (c :: cs) (descendantIf spaced last ++ part :: parts) := by
  refine ⟨fun again pending hagain hspaced => ?_, fun hlast hgap hspaced => ?_⟩
  · rw [anyPart_part hc hkind hpart, Bool.or_eq_false_iff] at hspaced
    obtain ⟨tail, part', m, shortened, heq, hread, hrest, htally⟩ :=
      h.exists_part hnested hpart hinner hspaced.1 hspaced.2
    refine ⟨descendantIf spaced last ++ part' :: shortened, ?_, ?_⟩
    · rw [minifyFrom_gap hc, show ({} : PreludeState) = gap false false from rfl, heq, readParts_flush,
        ← hagain]
      exact readParts_part hc hkind hread hrest
    · rw [anyPart_part hc hkind hpart]
      exact htally.append fun _ hmem => flat_of_mem_descendantIf hmem
  · subst hlast
    rw [anyPart_part hc hkind hpart, Bool.or_eq_false_iff] at hspaced
    rw [anyPart_part hc hkind hpart, minifyFrom_gap hc,
      show ({} : PreludeState) = gap false false from rfl]
    cases htag : startsTag c with
    | true =>
        have hgo : headIs goesOn (c :: cs) ≠ false := by
          rw [headIs, goesOn_of_startsTag htag]
          decide
        obtain rfl : spaced = true := hgap.resolve_right hgo
        obtain ⟨more, after, others, shortened, heq, hothers, hread, htally⟩ :=
          h.loose_tag htag hpart hspaced.1 hspaced.2
        exact ⟨more, after, others, shortened, heq, hothers, hread, htally.drop _,
          fun hlost => absurd hlost (by simp [gapLost])⟩
    | false =>
        have hstop : goesOn c = false := by
          rw [Bool.eq_false_iff]
          intro hgo
          rw [startsTag_of_goesOn hpart hgo] at htag
          cases htag
        obtain ⟨tail, part', m, shortened, heq, hread, hrest, htally⟩ :=
          h.exists_part hnested hpart hinner hspaced.1 hspaced.2
        refine ⟨[], c :: tail, [], part' :: shortened, heq, .stop hstop, ?_, ?_, fun _ => rfl⟩
        · exact (readParts_part hc hkind hread hrest :
            readParts nested .simple false 0 (c :: tail) = _)
        · cases spaced with
          | true => exact htally.drop _
          | false => exact htally

end Steps

/-- What can be read of a branch can be read after minifying. -/
theorem restRereads {nested : ListReader} {bound : Nat} (hnested : ReadsMinified nested bound)
    {last : Last} {spaced : Bool} {cs : List Char} {parts : List Part} (hbound : cs.length ≤ bound)
    (h : readParts nested last spaced 0 cs = .ok parts)
    (hinner : anyTextOfParts nameSpaced parts = false) :
    RestRereads nested last spaced cs parts := by
  have hrun := run_of_readParts h
  clear h
  induction hrun with
  | stop =>
      exact ⟨fun _ _ _ _ => ⟨[], rfl, .nil⟩, fun _ _ _ => ⟨[], [], [], [], rfl, .stop rfl, rfl, .nil,
        fun _ => rfl⟩⟩
  | space hc _ ih => exact (ih (Nat.le_of_succ_le hbound) hinner).space hc
  | combinator hc hkind _ ih => exact (ih (Nat.le_of_succ_le hbound) hinner).combinator hc hkind
  | @part _ _ c cs _ n _ hc hkind hpart _ ih =>
      have hcs : cs.length ≤ bound := Nat.le_of_succ_le hbound
      have hdrop : (cs.drop n).length ≤ bound := Nat.le_trans (by simp) hcs
      rw [anyTextOfParts_append, Bool.or_eq_false_iff, anyTextOfParts, Bool.or_eq_false_iff] at hinner
      exact (ih hdrop hinner.2.2).part hc hkind (fun hlt => hnested (Nat.lt_of_lt_of_le hlt hcs))
        hpart hinner.2.1

/-! ## Branches -/

/-- A branch is read again after minifying. -/
theorem exists_readTrimmed {nested : ListReader} {text : List Char} {branch : Branch}
    (hnested : ReadsMinified nested text.length)
    (h : readTrimmed nested text = .ok branch) (hspaced : branch.anyText nameSpaced = false) :
    ∃ again, readTrimmed nested (minifyFrom (gap false false) text) = .ok again ∧
      branch.Kept again := by
  obtain ⟨parts, hparts, rfl⟩ := exists_of_bind_pure h
  obtain ⟨htext, hinner⟩ := Bool.or_eq_false_iff.1 hspaced
  rw [nameSpaced, String.toList_ofList] at htext
  obtain ⟨shortened, hread, htally⟩ :=
    (restRereads hnested (Nat.le_refl _) hparts hinner).tight false false rfl
      htext
  refine ⟨⟨.ofList (minifyFrom (gap false false) text), shortened⟩, ?_, ?_⟩
  · rw [readTrimmed, hread]
    rfl
  · have hlossy : lossy (.ofList text) = anyPart gapLost false false 0 text := by
      rw [lossy, String.toList_ofList, losesGap]
    rw [Branch.Kept, Branch.bare, Branch.bare, Branch.anyText, Branch.mk.injEq, hlossy,
      squeeze_ofList (filter_minifyFrom (gap false false) text)]
    cases hlost : anyPart gapLost false false 0 text with
    | true =>
        have hlt := htally.length_lt hlost
        simp only [Bool.true_or, Bool.true_eq_false, iff_false, not_and]
        intro _ hparts
        have hlength := congrArg List.length hparts
        rw [bareParts_eq_map, bareParts_eq_map, List.length_map, List.length_map] at hlength
        omega
    | false =>
        rw [Bool.false_or, ← forall₂_kept_parts (htally.kept hlost)]
        simp

end Stylesheet.Selector
