import Mathlib
import Stylesheet.Proofs.SelectorReading

/-!
# The text of selectors

A branch keeps its trimmed text, and a selector that loses branches is written as the texts of the
others with commas between them.  `readList_join` says that such a list is read as the branches
it was written from.

Three things have to come together.

* Cutting a list at its commas goes along the text with the open brackets, the open quote and a
  pending backslash (`Place`).  Every piece that is cut off leads from the start back to the start,
  and a text that does so is cut off as one piece whatever follows (`Place.split_append`).
* The branch is the *trimmed* piece.  Spaces do not move a place unless a backslash is pending, so
  what matters is that no branch that can be read ends with one.  The reader of parts and the
  cutting take backslashes and quotes alike (`quoting_of_readParts`).
* How deep the reader may go into nested lists does not matter once it is as deep as the text is
  long (`readListWithin_eq`).
-/

namespace Stylesheet.Selector

open Stylesheet.Text (headIs isSpace trim Spaces Trimmed)

/-! ## The reader of parts -/

/-- An escape ends its own backslash. -/
theorem Escape.along {escape rest : List Char} (h : Escape escape rest) :
    Place.along ⟨[], none, true⟩ escape = some Place.start := by
  have hdigits : ∀ {digits : List Char} (others : List Char), IsCode digits →
      (∀ c ∈ others, c ∉ cuttingMarks) →
      Place.along ⟨[], none, true⟩ (digits ++ others) = some Place.start := by
    intro digits others hcode hothers
    cases digits with
    | nil => exact absurd rfl hcode.ne_nil
    | cons d digits =>
        refine @Place.along_start (digits ++ others) (List.forall_mem_append.2 ⟨fun c hc => ?_, hothers⟩)
        exact Text.not_mem_of_class rfl (hcode.hex c (List.mem_cons_of_mem d hc))
  cases h with
  | single => rfl
  | code hcode =>
      have hall := hdigits [] hcode (by simp)
      rwa [List.append_nil] at hall
  | spaced hcode hc =>
      exact hdigits _ hcode (List.forall_mem_singleton.2 (Text.not_mem_of_class rfl hc))

/-- A name leaves nothing open. -/
theorem NameAt.along {text rest name : List Char} (h : NameAt text rest name) :
    Place.start.along text = some Place.start := by
  induction h with
  | stop => rfl
  | char hchar _ ih =>
      rw [Place.along, Place.next_start (Text.not_mem_of_class rfl hchar)]
      exact ih
  | @escape escape text _ _ hescape _ ih =>
      have hback : Place.start.along ('\\' :: (escape ++ text)) =
          Place.along ⟨[], none, true⟩ (escape ++ text) := rfl
      rw [hback, Place.along_append, hescape.along]
      exact ih

theorem NameAt.quoting {text rest name : List Char} (h : NameAt text rest name) :
    quoting unquoted text = unquoted :=
  Place.quoting_of_along h.along

/-- A pseudo-class leaves nothing quoted or escaped. -/
theorem quoting_of_readPseudo {nested : ListReader} {cs : List Char} {part : Part} {n : Nat}
    (h : readPseudo nested cs = .ok (part, n)) : quoting unquoted (cs.take n) = unquoted := by
  obtain ⟨marks, text, rest, name, rfl, hmarks, -, hname, hat⟩ := exists_of_readPseudo h
  have hfront : quoting unquoted (marks ++ text) = unquoted := by
    have hcolons : quoting unquoted marks = unquoted := by
      rcases hmarks with rfl | rfl
      · rfl
      · rfl
    rw [quoting_append, hcolons, hat.quoting]
  rw [readPseudo_eq hmarks hat hname] at h
  rw [← List.append_assoc]
  cases hopen : headIs (· == '(') rest with
  | false =>
      rw [readArgument_of_head hopen] at h
      cases h
      rw [List.take_left, hfront]
  | true =>
      cases rest with
      | nil => cases hopen
      | cons c rest =>
          obtain rfl : c = '(' := beq_iff_eq.1 hopen
          obtain ⟨argument, hargument, -, rfl⟩ := exists_of_readArgument h
          have hclosed := (quoting_of_untilClose brackets_round hargument).1
          have htake : (marks ++ text ++ '(' :: rest).take
              ((marks ++ text).length + argument.length + 2) =
                (marks ++ text) ++ '(' :: rest.take (argument.length + 1) := by
            rw [Nat.add_assoc, List.take_length_add_append, List.take_succ_cons]
          rw [htake, quoting_append, hfront, quoting, List.foldl_cons,
            quotingAfter_plain (by simp [Plain])]
          exact hclosed

/-- A part leaves nothing quoted or escaped. -/
theorem quoting_of_readPart {nested : ListReader} {c : Char} {cs : List Char} {part : Part} {n : Nat}
    (h : readPart nested c cs = .ok (part, n)) :
    quoting unquoted (c :: cs.take n) = unquoted := by
  have hplain : ∀ {d : Char}, Plain d → quoting unquoted (cs.take n) = unquoted →
      quoting unquoted (d :: cs.take n) = unquoted := by
    intro d hd hrest
    rw [quoting, List.foldl_cons, quotingAfter_plain hd]
    exact hrest
  have hnamed : ∀ {mark name m}, nameAfter mark cs = .ok (name, m) →
      quoting unquoted (cs.take m) = unquoted := by
    intro mark name m hname
    obtain ⟨text, rest, rfl, rfl, -, -, hat⟩ := nameAt_of_nameAfter hname
    rw [List.take_left, hat.quoting]
  have hcases := h
  rw [readPart.eq_def] at hcases
  split at hcases
  · cases hcases
    rfl
  · obtain ⟨found, hname, hpart⟩ := exists_of_bind_pure hcases
    cases hpart
    exact hplain (by simp [Plain]) (hnamed hname)
  · obtain ⟨found, hname, hpart⟩ := exists_of_bind_pure hcases
    cases hpart
    exact hplain (by simp [Plain]) (hnamed hname)
  · obtain ⟨inside, hinside, hpart⟩ := exists_of_bind_pure hcases
    cases hpart
    exact hplain (by simp [Plain]) (quoting_of_untilClose brackets_square hinside).1
  · exact hplain (by simp [Plain]) (quoting_of_readPseudo hcases)
  · cases hcases
    rfl
  · cases hcases
    rfl
  · cases hcases
  · cases hcases
  · split at hcases
    · next hc =>
        obtain ⟨text, rest, name, rfl, rfl, hat, -⟩ := exists_of_readPart_tag hc h
        rw [List.take_left]
        exact hat.quoting
    · cases hcases

/-- A branch that can be read leaves nothing quoted or escaped. -/
theorem quoting_of_run {nested : ListReader} {last : Last} {spaced : Bool} {cs : List Char}
    {parts : List Part} (h : Run nested last spaced cs parts) : quoting unquoted cs = unquoted := by
  have hplain : ∀ {c : Char} {cs : List Char}, Plain c → quoting unquoted cs = unquoted →
      quoting unquoted (c :: cs) = unquoted := by
    intro c cs hc hcs
    rw [quoting, List.foldl_cons, quotingAfter_plain hc]
    exact hcs
  induction h with
  | stop => rfl
  | space hspace _ ih => exact hplain (plain_of_class rfl hspace) ih
  | combinator _ hkind _ ih =>
      exact hplain (plain_of_class (p := fun d => (combinator? d).isSome) rfl (by simp [hkind])) ih
  | @part _ _ c cs _ n _ _ _ hpart _ ih =>
      rw [← List.take_append_drop n cs, ← List.cons_append, quoting_append, quoting_of_readPart hpart]
      exact ih

theorem quoting_of_readParts {nested : ListReader} {last : Last} {spaced : Bool} {cs : List Char}
    {parts : List Part} (h : readParts nested last spaced 0 cs = .ok parts) :
    quoting unquoted cs = unquoted :=
  quoting_of_run (run_of_readParts h)

/-! ## Nested lists -/

/-- Two readers of nested lists that agree on all texts shorter than some length. -/
def AgreeBelow (n : Nat) (f g : ListReader) : Prop := ∀ cs : List Char, cs.length < n → f cs = g cs

theorem AgreeBelow.mono {m n : Nat} {f g : ListReader} (h : AgreeBelow n f g) (hmn : m ≤ n) :
    AgreeBelow m f g := by
  intro cs hcs
  exact h cs (Nat.lt_of_lt_of_le hcs hmn)

theorem readPseudo_congr {f g : ListReader} {cs : List Char} (h : AgreeBelow cs.length f g) :
    readPseudo f cs = readPseudo g cs := by
  rw [readPseudo, readPseudo]
  refine congrArg _ (funext ?_)
  rintro ⟨written, length⟩
  dsimp only
  split
  · next rest hrest =>
      cases hinside : untilClose '(' ')' 0 none rest with
      | error e => rfl
      | ok inside =>
          have hlength := congrArg List.length hrest
          rw [List.length_drop, List.length_cons] at hlength
          have hshort := (quoting_of_untilClose brackets_round hinside).2
          have hnested : f inside = g inside := h inside (by omega)
          simp only [bind, Except.bind, hnested]
  · rfl

theorem readPart_congr {f g : ListReader} {c : Char} {cs : List Char}
    (h : AgreeBelow cs.length f g) : readPart f c cs = readPart g c cs := by
  rw [readPart.eq_def, readPart.eq_def g, readPseudo_congr h]

theorem readParts_congr {f g : ListReader} {cs : List Char} (h : AgreeBelow cs.length f g)
    (last : Last) (spaced : Bool) (skip : Nat) :
    readParts f last spaced skip cs = readParts g last spaced skip cs := by
  induction cs generalizing last spaced skip with
  | nil => cases skip <;> rfl
  | cons c cs ih =>
      have hcs : AgreeBelow cs.length f g := h.mono (Nat.le_succ _)
      cases skip with
      | succ skip => exact ih hcs last spaced skip
      | zero =>
          rw [readParts, readParts, readPart_congr hcs]
          simp only [ih hcs]

theorem readTrimmed_congr {f g : ListReader} {text : List Char} (h : AgreeBelow text.length f g) :
    readTrimmed f text = readTrimmed g text := by
  rw [readTrimmed, readTrimmed, readParts_congr h]

theorem length_trim_le (cs : List Char) : (trim cs).length ≤ cs.length :=
  (Text.trim_slice cs).length_le

/-- What a piece of a list leads to, and how long it is. -/
theorem along_of_splitBranches {cs : List Char} {pieces : List (List Char)}
    (h : splitBranches cs = .ok pieces) {p : List Char} (hp : p ∈ pieces) :
    Place.start.along p = some Place.start ∧ p.length ≤ cs.length := by
  obtain ⟨piece, rest, rfl, halong, hlength, hrest⟩ := Place.along_of_split (s := .start) h
  rcases List.mem_cons.1 hp with rfl | hp
  · exact ⟨halong, hlength⟩
  · exact hrest p hp

theorem mapM_congr {α β : Type} {f g : α → Except Error β} {l : List α}
    (h : ∀ a ∈ l, f a = g a) : l.mapM f = l.mapM g := by
  induction l with
  | nil => rfl
  | cons a l ih =>
      rw [List.mapM_cons, List.mapM_cons, h a List.mem_cons_self,
        ih fun b hb => h b (List.mem_cons_of_mem a hb)]

theorem readListWith_congr {f g : ListReader} {cs : List Char} (h : AgreeBelow cs.length f g) :
    readListWith f cs = readListWith g cs := by
  rw [readListWith, readListWith]
  cases hpieces : splitBranches cs with
  | error e => rfl
  | ok pieces =>
      refine mapM_congr ?_
      intro p hp
      have hlength := (along_of_splitBranches hpieces hp).2
      exact readTrimmed_congr (h.mono (Nat.le_trans (length_trim_le p) hlength))

/-- Readers that go as deep as a text is long agree on it. -/
theorem readListWithin_eq {m n : Nat} {cs : List Char} (hm : cs.length ≤ m) (hn : cs.length ≤ n) :
    readListWithin m cs = readListWithin n cs := by
  induction m generalizing n cs with
  | zero =>
      have hnone : ∀ f g, AgreeBelow cs.length f g := by
        intro f g t ht
        omega
      cases n with
      | zero => rfl
      | succ n => exact readListWith_congr (hnone _ _)
  | succ m ih =>
      cases n with
      | zero =>
          refine readListWith_congr ?_
          intro t ht
          omega
      | succ n =>
          refine readListWith_congr ?_
          intro t ht
          exact ih (by omega) (by omega)

/-- A reader that goes deep enough can read the nested lists itself. -/
theorem readListWithin_self {n : Nat} {cs : List Char} (h : cs.length ≤ n) :
    readListWithin n cs = readListWith (readListWithin n) cs := by
  rw [readListWithin_eq h (Nat.le_succ_of_le h)]
  rfl

/-! ## Branches put together again -/

/-- The results of reading some texts, one by one. -/
theorem forall₂_of_mapM {α β : Type} {f : α → Except Error β} {l : List α} {bs : List β}
    (h : l.mapM f = .ok bs) : List.Forall₂ (fun a b => f a = .ok b) l bs := by
  induction l generalizing bs with
  | nil =>
      cases h
      exact .nil
  | cons a l ih =>
      rw [List.mapM_cons] at h
      cases ha : f a with
      | error e =>
          rw [ha] at h
          cases h
      | ok c =>
          rw [ha] at h
          obtain ⟨rest, hrest, rfl⟩ := exists_of_bind_pure h
          exact .cons ha (ih hrest)

/-- Everything in the result of reading some texts was read from one of them. -/
theorem exists_of_mem_mapM {α β : Type} {f : α → Except Error β} {l : List α} {bs : List β}
    (h : l.mapM f = .ok bs) {b : β} (hb : b ∈ bs) : ∃ a ∈ l, f a = .ok b := by
  have hall := forall₂_of_mapM h
  clear h
  induction hall with
  | nil => exact absurd hb (by simp)
  | cons ha _ ih =>
      rcases List.mem_cons.1 hb with rfl | hb
      · exact ⟨_, List.mem_cons_self, ha⟩
      · obtain ⟨d, hd, hread⟩ := ih hb
        exact ⟨d, List.mem_cons_of_mem _ hd, hread⟩

theorem mapM_of_forall₂ {α β : Type} {f : α → Except Error β} {l : List α} {bs : List β}
    (h : List.Forall₂ (fun a b => f a = .ok b) l bs) : l.mapM f = .ok bs := by
  induction h with
  | nil => rfl
  | cons ha _ ih =>
      rw [List.mapM_cons, ha, ih]
      rfl

/-- A branch that can stand in a list as it is written. -/
structure Branch.Standing (b : Branch) : Prop where
  /-- Its text is trimmed. -/
  trimmed : Trimmed b.text.toList
  /-- Its text leaves nothing open. -/
  closed : Place.start.along b.text.toList = some Place.start
  /-- Its text is read as the branch. -/
  reads : readTrimmed (readListWithin b.text.length) b.text.toList = .ok b

/-- What is left of a piece without the spaces around it leads back to the start as well. -/
theorem along_trim {nested : ListReader} {piece : List Char} {b : Branch}
    (halong : Place.start.along piece = some Place.start)
    (hread : readTrimmed nested (trim piece) = .ok b) :
    Place.start.along (trim piece) = some Place.start := by
  obtain ⟨before, after, hpiece, hbefore, hafter, -⟩ := Text.exists_trim piece
  rw [hpiece, Place.along_append, Place.along_append, Place.along_spaces rfl hbefore] at halong
  dsimp only [Option.bind_some] at halong
  obtain ⟨parts, hparts, -⟩ := exists_of_bind_pure hread
  cases hplace : Place.start.along (trim piece) with
  | none =>
      rw [hplace] at halong
      cases halong
  | some s =>
      have hquoting := Place.quoting_of_along hplace
      have hnone := quoting_of_readParts hparts
      have hs : (s.quote, s.escaped) = unquoted := by
        rw [← hquoting]
        exact hnone
      rw [hplace] at halong
      dsimp only [Option.bind_some] at halong
      rw [Place.along_spaces hs hafter] at halong
      exact halong

/-- A list is read by cutting it into pieces and reading each of them. -/
theorem exists_pieces_of_readList {selector : String} {branches : List Branch}
    (h : readList selector = .ok branches) :
    ∃ pieces, splitBranches selector.toList = .ok pieces ∧
      pieces.mapM (fun piece => readTrimmed (readListWithin selector.length) (trim piece)) =
        .ok branches := by
  rw [readList, readListWithin_self (Nat.le_of_eq String.length_toList), readListWith] at h
  cases hpieces : splitBranches selector.toList with
  | error e =>
      rw [hpieces] at h
      cases h
  | ok pieces =>
      rw [hpieces] at h
      exact ⟨pieces, rfl, h⟩

/-- Every branch of a list that can be read can stand in a list. -/
theorem standing_of_readList {selector : String} {branches : List Branch}
    (h : readList selector = .ok branches) {b : Branch} (hb : b ∈ branches) : b.Standing := by
  obtain ⟨pieces, hpieces, hbranches⟩ := exists_pieces_of_readList h
  obtain ⟨piece, hpiece, hread⟩ := exists_of_mem_mapM hbranches hb
  obtain ⟨halong, hlength⟩ := along_of_splitBranches hpieces hpiece
  have hclosed := along_trim halong hread
  obtain ⟨parts, -, rfl⟩ := exists_of_bind_pure hread
  have htext : (String.ofList (trim piece)).toList = trim piece := String.toList_ofList
  refine ⟨?_, ?_, ?_⟩
  · rw [htext]
    exact Text.trimmed_trim piece
  · rw [htext]
    exact hclosed
  · rw [htext, ← hread]
    refine readTrimmed_congr ?_
    intro t ht
    have hle := length_trim_le piece
    rw [String.length_toList] at hlength
    rw [String.length_ofList]
    exact readListWithin_eq (by omega) (by omega)

/-- Branches that can stand in a list, written after spaces, are cut off as they were. -/
theorem split_join {bs : List Branch} (hne : bs ≠ []) (hbs : ∀ b ∈ bs, b.Standing)
    {a : List Char} (ha : Spaces a) :
    ∃ pieces, splitBranches (a ++ (Text.join ", " (bs.map Branch.text)).toList) = .ok pieces ∧
      List.Forall₂ (fun p (b : Branch) => b.Standing ∧ trim p = b.text.toList) pieces bs := by
  induction bs generalizing a with
  | nil => exact absurd rfl hne
  | cons b bs ih =>
      have hb := hbs b List.mem_cons_self
      have halong : Place.start.along (a ++ b.text.toList) = some Place.start := by
        rw [Place.along_append, Place.along_spaces rfl ha]
        exact hb.closed
      have htrim : trim (a ++ b.text.toList) = b.text.toList := by
        have hall := Text.trim_eq_of_trimmed ha hb.trimmed Text.spaces_nil
        rwa [List.append_nil] at hall
      cases bs with
      | nil => exact ⟨[_], Place.split_last halong, .cons ⟨hb, htrim⟩ .nil⟩
      | cons c cs =>
          obtain ⟨pieces, hpieces, hforall⟩ := ih (by simp)
            (fun d hd => hbs d (List.mem_cons_of_mem b hd)) (a := [' ']) (by simp [Spaces, isSpace])
          refine ⟨(a ++ b.text.toList) :: pieces, ?_, .cons ⟨hb, htrim⟩ hforall⟩
          have htext : a ++ (Text.join ", " ((b :: c :: cs).map Branch.text)).toList =
              (a ++ b.text.toList) ++
                ',' :: ([' '] ++ (Text.join ", " ((c :: cs).map Branch.text)).toList) := by
            simp [Text.join]
          have hsplit := Place.split_append halong
            ([' '] ++ (Text.join ", " ((c :: cs).map Branch.text)).toList)
          rw [htext]
          refine hsplit.trans ?_
          rw [show Place.start.split _ = _ from hpieces]
          rfl

/-- Branches that can stand in a list, put together with commas, are read as those branches. -/
theorem readList_join {bs : List Branch} (hne : bs ≠ []) (hbs : ∀ b ∈ bs, b.Standing) :
    readList (Text.join ", " (bs.map Branch.text)) = .ok bs := by
  obtain ⟨pieces, hpieces, hforall⟩ := split_join hne hbs Text.spaces_nil
  rw [List.nil_append] at hpieces
  generalize Text.join ", " (bs.map Branch.text) = selector at hpieces ⊢
  rw [readList, readListWithin_self (Nat.le_of_eq String.length_toList), readListWith, hpieces]
  refine mapM_of_forall₂ ?_
  have hshort := (List.forall₂_and_left pieces bs).2
    ⟨fun p hp => (along_of_splitBranches hpieces hp).2, hforall⟩
  refine hshort.imp ?_
  rintro p b ⟨hlength, hb, htrim⟩
  rw [htrim, ← hb.reads]
  refine readTrimmed_congr ?_
  intro t ht
  have hle := length_trim_le p
  rw [htrim] at hle
  rw [String.length_toList] at hlength hle ht
  exact readListWithin_eq (by omega) (by omega)

/-- The branches that a selector keeps, written as a selector, are read as the same branches. -/
theorem readList_kept {selector : String} {branches kept : List Branch}
    (h : readList selector = .ok branches) (hkept : kept.Sublist branches) (hne : kept ≠ []) :
    readList (Text.join ", " (kept.map Branch.text)) = .ok kept :=
  readList_join hne fun _ hb => standing_of_readList h (hkept.mem hb)

/-- Dropping the middle branch of a list with an escaped and a quoted comma. -/
theorem readList_kept_commas :
    readList (Text.join ", " [".a\\,", "e[f=',']"]) =
      .ok [⟨".a\\,", [.cls "a,"]⟩, ⟨"e[f=',']", [.tag "e", .attribute "f=','"]⟩] := by
  have hread : readList ".a\\, , b:is(c, d) ,e[f=',']" =
      .ok [⟨".a\\,", [.cls "a,"]⟩,
        ⟨"b:is(c, d)", [.tag "b", .functional "is" [⟨"c", [.tag "c"]⟩, ⟨"d", [.tag "d"]⟩]]⟩,
        ⟨"e[f=',']", [.tag "e", .attribute "f=','"]⟩] := by cbv
  exact readList_kept hread (.cons_cons _ (.cons _ (.cons_cons _ .slnil))) (by simp)

end Stylesheet.Selector
