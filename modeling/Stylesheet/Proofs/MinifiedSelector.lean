import Stylesheet.Proofs.MinifiedBranch
import Stylesheet.Proofs.SelectorText

/-!
# Minified selectors

A selector that can be read can be read after minifying, if its names have no spaces.  Its branches are the
same up to spaces in texts that are kept as they are written, but for those in which a gap is lost
(`readList_minifyPrelude`).

A list is cut into the same branches, since cutting takes no notice of spaces.  Each branch is trimmed and
minified, in this order or the other (`trim_minifyFrom`).
-/

namespace Stylesheet.Selector

open Stylesheet.Text (headIs isSpace trim Spaces Trimmed)

/-! ## Trimmed texts -/

theorem exists_gap {s : PreludeState} (hquote : s.quote = none) (hescaped : s.escaped = false) :
    s = gap s.pending s.afterComma := by
  obtain ⟨quote, escaped, pending, comma⟩ := s
  cases hquote
  cases hescaped
  rfl

/-- Behind a text that leaves nothing open, minifying is between two characters outside quotes. -/
theorem along_gap {cs : List Char} (h : quoting unquoted cs = unquoted) (pending comma : Bool) :
    ∃ pending' comma', (gap pending comma).along cs = gap pending' comma' := by
  obtain ⟨hquote, hescaped⟩ :=
    Prod.mk.inj ((PreludeState.quoting_along (gap pending comma) cs).symm.trans h)
  exact ⟨_, _, exists_gap hquote hescaped⟩

theorem spaces_flush (s : PreludeState) : Spaces s.flush := by
  rw [PreludeState.flush]
  split
  · simp [Spaces, isSpace]
  · exact Text.spaces_nil

/-- A trimmed text stays trimmed. -/
theorem trimmed_minifyFrom {cs : List Char} (h : Trimmed cs) : Trimmed (minifyFrom (gap false false) cs) := by
  constructor
  · rw [headIs_minifyFrom h.1]
    exact h.1
  · cases hreverse : cs.reverse with
    | nil =>
        rw [List.reverse_eq_nil_iff.1 hreverse]
        rfl
    | cons d before =>
        have hd : isSpace d = false := by
          have hlast := h.2
          rwa [hreverse] at hlast
        obtain rfl : cs = before.reverse ++ [d] := by
          rw [← List.reverse_cons, ← hreverse, List.reverse_reverse]
        have hwritten : ∀ s : PreludeState, ∃ front, s.written d = front ++ [d] := by
          intro s
          rw [PreludeState.written, hd, Bool.and_false]
          split
          · exact ⟨[], rfl⟩
          · exact ⟨s.flush, rfl⟩
        obtain ⟨front, hfront⟩ := hwritten ((gap false false).along before.reverse)
        rw [minifyFrom_append, minifyFrom_cons, hfront]
        simpa [minifyFrom, headIs] using hd

/-- Minifying trims a text, but for a space in front of it. -/
theorem minifyFrom_trim {cs : List Char} (hne : trim cs ≠ [])
    (hclosed : quoting unquoted (trim cs) = unquoted) (pending comma : Bool) :
    ∃ pending', minifyFrom (gap pending comma) cs =
      (gap pending' comma).flush ++ minifyFrom (gap false false) (trim cs) := by
  obtain ⟨before, after, hcs, hbefore, hafter, htrimmed⟩ := Text.exists_trim cs
  have hfront : ∀ {a : List Char}, Spaces a → ∀ pending b,
      ∃ pending', minifyFrom (gap pending comma) (a ++ b) = minifyFrom (gap pending' comma) b := by
    intro a ha
    induction a with
    | nil => exact fun pending b => ⟨pending, rfl⟩
    | cons c a ih =>
        obtain ⟨hc, ha⟩ := List.forall_mem_cons.1 ha
        intro pending b
        rw [List.cons_append, minifyFrom_gap_space hc]
        exact ih ha true b
  generalize trim cs = middle at hcs htrimmed hne hclosed ⊢
  obtain ⟨pending', heq⟩ := hfront hbefore pending (middle ++ after)
  obtain ⟨p, k, hstate⟩ := along_gap hclosed pending' comma
  cases middle with
  | nil => exact absurd rfl hne
  | cons c middle =>
      refine ⟨pending', ?_⟩
      rw [hcs, List.append_assoc, heq, minifyFrom_append, hstate, minifyFrom_spaces hafter,
        List.append_nil, minifyFrom_gap htrimmed.1]
      rfl

/-! ## Pieces -/

/-- The text of a branch that can be read is not empty and leaves nothing open. -/
theorem closed_of_readTrimmed {nested : ListReader} {text : List Char} {branch : Branch}
    (h : readTrimmed nested text = .ok branch) :
    text ≠ [] ∧ quoting unquoted text = unquoted := by
  obtain ⟨parts, hparts, -⟩ := exists_of_bind_pure h
  refine ⟨?_, quoting_of_readParts hparts⟩
  rintro rfl
  cases hparts

/-- What is written for a list is the first branch, a comma and what is written for the rest. -/
theorem minifyFrom_comma {piece : List Char} (h : quoting unquoted piece = unquoted)
    (pending comma : Bool) (rest : List Char) :
    ∃ pad, Spaces pad ∧ minifyFrom (gap pending comma) (piece ++ ',' :: rest) =
      (minifyFrom (gap pending comma) piece ++ pad) ++ ',' :: minifyFrom (gap false true) rest := by
  obtain ⟨pending', comma', hstate⟩ := along_gap h pending comma
  refine ⟨(gap pending' comma').flush, spaces_flush _, ?_⟩
  rw [minifyFrom_append, hstate, minifyFrom_gap_plain (by simp [Plain]) (by decide), List.append_assoc]
  rfl

theorem quoting_of_along_start {piece : List Char} (h : Place.start.along piece = some Place.start) :
    quoting unquoted piece = unquoted := Place.quoting_of_along h

/-- Reading a piece of a list, however its spaces have been held back. -/
theorem trim_minifyFrom {nested : ListReader} {piece : List Char} {branch : Branch}
    (h : readTrimmed nested (trim piece) = .ok branch) (pending comma : Bool) {pad : List Char}
    (hpad : Spaces pad) :
    trim (minifyFrom (gap pending comma) piece ++ pad) = minifyFrom (gap false false) (trim piece) := by
  obtain ⟨hne, hclosed⟩ := closed_of_readTrimmed h
  obtain ⟨pending', heq⟩ := minifyFrom_trim hne hclosed pending comma
  rw [heq]
  exact Text.trim_eq_of_trimmed (spaces_flush _) (trimmed_minifyFrom (Text.trimmed_trim piece)) hpad

theorem along_minified {piece : List Char} (h : Place.start.along piece = some Place.start)
    (pending comma : Bool) {pad : List Char} (hpad : Spaces pad) :
    Place.start.along (minifyFrom (gap pending comma) piece ++ pad) = some Place.start := by
  have hsame := Place.along_minifyFrom (p := .start) (s := gap pending comma) rfl (sound_gap _ _) piece
  rw [Place.along_append, hsame, h]
  exact Place.along_spaces rfl hpad

/-! ## Lists -/

/-- The branches of a list, read one by one. -/
def Reads (nested : ListReader) (pieces : List (List Char)) (branches : List Branch) : Prop :=
  List.Forall₂ (fun piece branch => readTrimmed nested (trim piece) = .ok branch) pieces branches

theorem exists_reads {nested : ListReader} {cs : List Char} {branches : List Branch}
    (h : readListWith nested cs = .ok branches) :
    ∃ pieces, Place.start.split cs = .ok pieces ∧ Reads nested pieces branches := by
  rw [readListWith] at h
  cases hpieces : splitBranches cs with
  | error e =>
      rw [hpieces] at h
      cases h
  | ok pieces =>
      rw [hpieces] at h
      exact ⟨pieces, hpieces, forall₂_of_mapM h⟩

theorem Reads.readListWith_eq {nested : ListReader} {cs : List Char} {pieces : List (List Char)}
    {branches : List Branch} (h : Reads nested pieces branches)
    (hsplit : Place.start.split cs = .ok pieces) : readListWith nested cs = .ok branches := by
  rw [readListWith, show splitBranches cs = .ok pieces from hsplit]
  exact mapM_of_forall₂ h

/-- The pieces of a list after minifying are read as they should. -/
theorem Reads.minified {nested : ListReader} {bound : Nat} (hnested : ReadsMinified nested bound)
    {cs : List Char} {pieces : List (List Char)} {branches : List Branch}
    (h : Reads nested pieces branches) (hbound : cs.length ≤ bound)
    (hsplit : Place.start.split cs = .ok pieces)
    (hspaced : anyTextOfBranches nameSpaced branches = false) (pending comma : Bool)
    {pad : List Char} (hpad : Spaces pad) :
    ∃ again shortened, Place.start.split (minifyFrom (gap pending comma) cs ++ pad) = .ok again ∧
      Reads nested again shortened ∧ List.Forall₂ Branch.Kept branches shortened := by
  have hpiece : ∀ {piece branch}, piece.length ≤ bound → readTrimmed nested (trim piece) = .ok branch →
      branch.anyText nameSpaced = false → ∀ pending comma {pad}, Spaces pad →
      ∃ again, readTrimmed nested (trim (minifyFrom (gap pending comma) piece ++ pad)) = .ok again ∧
        branch.Kept again := by
    intro piece branch hlength h hspaced pending comma pad hpad
    rw [trim_minifyFrom h pending comma hpad]
    refine exists_readTrimmed (fun hlt => hnested ?_) h hspaced
    exact Nat.lt_of_lt_of_le hlt (Nat.le_trans (length_trim_le piece) hlength)
  induction h generalizing cs pending comma with
  | nil =>
      rcases Place.split_cases hsplit with ⟨hpieces, -⟩ | ⟨_, _, _, -, hpieces, -⟩
      · cases hpieces
      · cases hpieces
  | cons hread hrest ih =>
      obtain ⟨hbranch, hbranches⟩ := Bool.or_eq_false_iff.1 hspaced
      rcases Place.split_cases hsplit with
        ⟨hpieces, halong⟩ | ⟨piece, rest, others, rfl, hpieces, halong, hothers⟩
      · cases hpieces
        cases hrest
        obtain ⟨again, hagain, hkept⟩ := hpiece hbound hread hbranch pending comma hpad
        exact ⟨_, _, Place.split_last (along_minified halong pending comma hpad), .cons hagain .nil,
          .cons hkept .nil⟩
      · cases hpieces
        rw [List.length_append, List.length_cons] at hbound
        obtain ⟨pieces', shortened, hsplit', hreads, hkepts⟩ :=
          ih (by omega) hothers hbranches false true
        obtain ⟨pad', hpad', heq⟩ := minifyFrom_comma (quoting_of_along_start halong) pending comma rest
        obtain ⟨again, hagain, hkept⟩ := hpiece (by omega) hread hbranch pending comma hpad'
        refine ⟨_ :: pieces', _ :: shortened, ?_, .cons hagain hreads, .cons hkept hkepts⟩
        rw [heq, List.append_assoc, List.cons_append,
          Place.split_append (along_minified halong pending comma hpad'), hsplit']
        rfl

/-- A list that can be read is not blank and leaves nothing open. -/
theorem Reads.closed {nested : ListReader} {cs : List Char} {pieces : List (List Char)}
    {branches : List Branch} (h : Reads nested pieces branches)
    (hsplit : Place.start.split cs = .ok pieces) :
    trim cs ≠ [] ∧ quoting unquoted (trim cs) = unquoted := by
  have hplain : ∀ {a : List Char}, Spaces a → ∀ c ∈ a, Plain c := fun ha c hc =>
    plain_of_class (by decide) (ha c hc)
  induction h generalizing cs with
  | nil =>
      rcases Place.split_cases hsplit with ⟨hpieces, -⟩ | ⟨_, _, _, -, hpieces, -⟩
      · cases hpieces
      · cases hpieces
  | @cons piece _ _ _ hread _ ih =>
      obtain ⟨hne, hclosed⟩ := closed_of_readTrimmed hread
      rcases Place.split_cases hsplit with ⟨hpieces, -⟩ | ⟨_, rest, others, rfl, hpieces, -, hothers⟩
      · cases hpieces
        exact ⟨hne, hclosed⟩
      · cases hpieces
        obtain ⟨hrestne, hrestclosed⟩ := ih hothers
        obtain ⟨a, b, hpiece, ha, hb, htrimmed⟩ := Text.exists_trim piece
        obtain ⟨c, d, hrest, hc, hd, hrestTrimmed⟩ := Text.exists_trim rest
        generalize trim piece = first at hpiece htrimmed hne hclosed
        generalize trim rest = last at hrest hrestTrimmed hrestne hrestclosed
        subst hpiece hrest
        have htrim : trim (a ++ first ++ b ++ ',' :: (c ++ last ++ d)) =
            first ++ ((b ++ ',' :: c) ++ last) := by
          rw [← Text.trim_eq_of_trimmed ha (htrimmed.append hrestTrimmed hne hrestne (b ++ ',' :: c)) hd]
          simp
        have hbetween : quoting unquoted (b ++ ',' :: c) = unquoted :=
          quoting_plain (List.forall_mem_append.2
            ⟨hplain hb, List.forall_mem_cons.2 ⟨by simp [Plain], hplain hc⟩⟩)
        rw [htrim]
        refine ⟨by simp, ?_⟩
        rw [quoting_append, hclosed, quoting_append, hbetween, hrestclosed]

/-- The reader of lists that goes deep enough reads minified lists as it should. -/
theorem readsMinified_readListWithin {deep n : Nat} (h : n ≤ deep) :
    ReadsMinified (readListWithin deep) n := by
  induction n with
  | zero => exact fun hlt => absurd hlt (Nat.not_lt_zero _)
  | succ n ih =>
      intro inside branches hlt hread hspaced
      have hlength : (minifiedUpTo (gap false false) inside).length ≤ inside.length + 1 := by
        have hminified := length_minifyFrom_le (gap false false) inside
        have hflush : ((gap false false).along inside).flush.length ≤ 1 := by
          rw [PreludeState.flush]
          split
          · exact Nat.le_refl 1
          · exact Nat.zero_le 1
        rw [minifiedUpTo, List.length_append]
        exact Nat.add_le_add hminified hflush
      rw [readListWithin_self (by omega)] at hread
      obtain ⟨pieces, hsplit, hreads⟩ := exists_reads hread
      obtain ⟨again, shortened, hagain, hshortened, hkept⟩ := hreads.minified (ih (by omega))
        (Nat.le_of_lt_succ hlt) hsplit hspaced false false (spaces_flush _)
      refine ⟨shortened, ?_, hkept⟩
      rw [readListWithin_self (by omega)]
      exact hshortened.readListWith_eq hagain

/-- A selector whose names have no spaces can be read again after minifying, as many branches as before.
A branch means the same exactly if no gap is lost in it, and is then kept by the same allow-lists. -/
theorem readList_minifyPrelude {selector : String} {branches : List Branch}
    (h : readList selector = .ok branches)
    (hspaced : ∀ branch ∈ branches, branch.anyText nameSpaced = false) :
    ∃ shortened, readList (.ofList (minifyPrelude selector.toList)) = .ok shortened ∧
      List.Forall₂ (fun branch again =>
        (again.bare = branch.bare ↔ branch.anyText lossy = false) ∧
          (branch.anyText lossy = false → ∀ allow,
            Purge.branchAllowed allow again = Purge.branchAllowed allow branch))
        branches shortened := by
  rw [readList, readListWithin_self (Nat.le_of_eq String.length_toList)] at h
  obtain ⟨pieces, hsplit, hreads⟩ := exists_reads h
  obtain ⟨again, shortened, hagain, hshortened, hkept⟩ :=
    hreads.minified (readsMinified_readListWithin (Nat.le_refl _)) (Nat.le_of_eq String.length_toList)
      hsplit (anyTextOfBranches_eq_false.2 hspaced) false true Text.spaces_nil
  obtain ⟨hne, hclosed⟩ := hreads.closed hsplit
  obtain ⟨pending, hminified⟩ := minifyFrom_trim hne hclosed false true
  have hflush : (gap pending true).flush = [] := by simp [PreludeState.flush, gap]
  rw [hminified, hflush, List.nil_append, List.append_nil] at hagain
  have hlength : (minifyPrelude selector.toList).length ≤ selector.length := by
    have hle := length_minifyFrom_le {} (trim selector.toList)
    have htrim := length_trim_le selector.toList
    rw [String.length_toList] at htrim
    exact Nat.le_trans hle htrim
  refine ⟨shortened, ?_, hkept.imp fun branch again hbranch => ⟨hbranch, fun hlossless allow => ?_⟩⟩
  · rw [readList, String.length_ofList, String.toList_ofList,
      readListWithin_eq (Nat.le_refl _) hlength, readListWithin_self hlength]
    exact hshortened.readListWith_eq hagain
  · have hbare : again.bare = branch.bare := Iff.mpr hbranch hlossless
    rw [← Purge.branchAllowed_bare, hbare, Purge.branchAllowed_bare]

/-- A list whose second branch loses two gaps, one of them in a nested list. -/
theorem readList_minifyPrelude_gaps :
    ∃ first second first' second' : Branch,
      readList "a[t='x,  y']  >  .b ,\n *:is(c\\,  d) .\\65  f" = .ok [first, second] ∧
        readList (.ofList
          (minifyPrelude "a[t='x,  y']  >  .b ,\n *:is(c\\,  d) .\\65  f".toList)) =
            .ok [first', second'] ∧
        first'.bare = first.bare ∧ second'.bare ≠ second.bare := by
  have hread : readList "a[t='x,  y']  >  .b ,\n *:is(c\\,  d) .\\65  f" =
      .ok [⟨"a[t='x,  y']  >  .b", [.tag "a", .attribute "t='x,  y'", .combinator .child, .cls "b"]⟩,
        ⟨"*:is(c\\,  d) .\\65  f", [.universal,
          .functional "is" [⟨"c\\,  d", [.tag "c,", .combinator .descendant, .tag "d"]⟩],
          .combinator .descendant, .cls "e", .combinator .descendant, .tag "f"]⟩] := by cbv
  obtain ⟨shortened, hshortened, hkept⟩ := readList_minifyPrelude hread
    (List.forall_mem_cons.2 ⟨by cbv, List.forall_mem_singleton.2 (by cbv)⟩)
  obtain ⟨first', rest, hfirst, hrest, rfl⟩ := List.forall₂_cons_left_iff.1 hkept
  obtain ⟨second', others, hsecond, hothers, rfl⟩ := List.forall₂_cons_left_iff.1 hrest
  obtain rfl := List.forall₂_nil_left_iff.1 hothers
  refine ⟨_, _, first', second', hread, hshortened, hfirst.1.2 (by cbv), fun hbare => ?_⟩
  exact absurd (hsecond.1.1 hbare) (by cbv; decide)

-- An escaped comma and the digits of an escape lose a gap, one space behind digits is none, and nothing
-- is lost in front of another combinator.
example : ["a\\, b", "a\\41  b", "a\\41 b", "a\\, > b"].map lossy = [true, true, false, false] := by cbv

end Stylesheet.Selector
