import Mathlib.Data.List.Basic
import Stylesheet.Node.Printer
import Stylesheet.Proofs.ListCutting

/-!
# Minified preludes

`minifyFrom` walks along a prelude with a state.  What it writes for a text and another one behind it is
what it writes for the one, and then, from the state that this leaves (`PreludeState.along`), for the other.

Between two characters outside quotes only two things count: whether spaces have been held back, and
whether a comma came last (`gap`).  What a reader sees of the text is the same in both texts as long as the
reader takes quotes and backslashes as `minifyFrom` does and passes over spaces outside quotes.  The cutting
of lists does (`Place.along_minifyFrom`), and so does the search for a closing bracket
(`untilClose_minifiedUpTo`).
-/

namespace Stylesheet

open Stylesheet.Text (headIs isSpace trim Spaces Trimmed)

/-! ## States -/

namespace PreludeState

/-- The state after one more character. -/
def next (s : PreludeState) (c : Char) : PreludeState :=
  if s.escaped then { s with escaped := false, afterComma := c == ',' }
  else if s.quote.isNone && isSpace c then { s with pending := true }
  else
    { quote := if c == '\\' then s.quote else quoteAfter c s.quote
      escaped := c == '\\'
      afterComma := c == ',' }

/-- The state after a text. -/
def along (s : PreludeState) (cs : List Char) : PreludeState := cs.foldl next s

/-- Spaces are held back outside quotes only, and not behind a backslash. -/
def Sound (s : PreludeState) : Prop := s.pending = true → s.quote = none ∧ s.escaped = false

/-- The spaces that come out before the next character that is none. -/
def flush (s : PreludeState) : List Char := if s.pending && !s.afterComma then [' '] else []

/-- What is written for a character: nothing for spaces outside quotes, and else the character after the
spaces that have been held back. -/
def written (s : PreludeState) (c : Char) : List Char :=
  if s.escaped then [c] else if s.quote.isNone && isSpace c then [] else s.flush ++ [c]

end PreludeState

theorem minifyFrom_cons (s : PreludeState) (c : Char) (cs : List Char) :
    minifyFrom s (c :: cs) = s.written c ++ minifyFrom (s.next c) cs := by
  rw [minifyFrom, PreludeState.written, PreludeState.next]
  split
  · rfl
  · split
    · rfl
    · rw [PreludeState.flush]
      cases s.pending && !s.afterComma with
      | true => rfl
      | false => rfl

theorem minifyFrom_append (s : PreludeState) (a b : List Char) :
    minifyFrom s (a ++ b) = minifyFrom s a ++ minifyFrom (s.along a) b := by
  induction a generalizing s with
  | nil => rfl
  | cons c a ih =>
      rw [List.cons_append, minifyFrom_cons, minifyFrom_cons, ih, List.append_assoc]
      rfl

/-- What is written for a text in front of a character that is no space. -/
def minifiedUpTo (s : PreludeState) (cs : List Char) : List Char :=
  minifyFrom s cs ++ (s.along cs).flush

section Unescaped

variable {s : PreludeState} (hescaped : s.escaped = false)

include hescaped

theorem next_space (hquote : s.quote = none) {c : Char} (hc : isSpace c = true) :
    s.written c = [] ∧ s.next c = { s with pending := true } := by
  rw [PreludeState.written, PreludeState.next, hescaped, hquote, hc]
  exact ⟨rfl, rfl⟩

theorem next_visible {c : Char} (hc : c ≠ '\\') (hvisible : (s.quote.isNone && isSpace c) = false) :
    s.written c = s.flush ++ [c] ∧ s.next c = ⟨quoteAfter c s.quote, false, false, c == ','⟩ := by
  have hback : (c == '\\') = false := beq_eq_false_iff_ne.2 hc
  rw [PreludeState.written, PreludeState.next, hescaped, hvisible, hback]
  exact ⟨rfl, rfl⟩

theorem next_backslash :
    s.written '\\' = s.flush ++ ['\\'] ∧ s.next '\\' = ⟨s.quote, true, false, false⟩ := by
  have hvisible : (s.quote.isNone && isSpace '\\') = false := by simp [isSpace]
  rw [PreludeState.written, PreludeState.next, hescaped, hvisible]
  exact ⟨rfl, rfl⟩

/-- Spaces outside quotes are held back. -/
theorem minifyFrom_space (hquote : s.quote = none) {c : Char} (hc : isSpace c = true)
    (cs : List Char) : minifyFrom s (c :: cs) = minifyFrom { s with pending := true } cs := by
  obtain ⟨hwritten, hnext⟩ := next_space hescaped hquote hc
  rw [minifyFrom_cons, hwritten, hnext, List.nil_append]

/-- Any other character comes out behind them. -/
theorem minifyFrom_visible {c : Char} (hc : c ≠ '\\')
    (hvisible : (s.quote.isNone && isSpace c) = false) (cs : List Char) :
    minifyFrom s (c :: cs) =
      s.flush ++ c :: minifyFrom ⟨quoteAfter c s.quote, false, false, c == ','⟩ cs := by
  obtain ⟨hwritten, hnext⟩ := next_visible hescaped hc hvisible
  rw [minifyFrom_cons, hwritten, hnext, List.append_assoc, List.singleton_append]

/-- So does a backslash with the character after it. -/
theorem minifyFrom_backslash (d : Char) (cs : List Char) :
    minifyFrom s ('\\' :: d :: cs) =
      s.flush ++ '\\' :: d :: minifyFrom ⟨s.quote, false, false, d == ','⟩ cs := by
  obtain ⟨hwritten, hnext⟩ := next_backslash hescaped
  rw [minifyFrom_cons, hwritten, hnext, minifyFrom_cons, List.append_assoc]
  rfl

theorem minifiedUpTo_space (hquote : s.quote = none) {c : Char} (hc : isSpace c = true)
    (cs : List Char) : minifiedUpTo s (c :: cs) = minifiedUpTo { s with pending := true } cs := by
  rw [minifiedUpTo, minifyFrom_space hescaped hquote hc, PreludeState.along, List.foldl_cons,
    (next_space hescaped hquote hc).2]
  rfl

theorem minifiedUpTo_visible {c : Char} (hc : c ≠ '\\')
    (hvisible : (s.quote.isNone && isSpace c) = false) (cs : List Char) :
    minifiedUpTo s (c :: cs) =
      s.flush ++ c :: minifiedUpTo ⟨quoteAfter c s.quote, false, false, c == ','⟩ cs := by
  rw [minifiedUpTo, minifyFrom_visible hescaped hc hvisible, PreludeState.along, List.foldl_cons,
    (next_visible hescaped hc hvisible).2, List.append_assoc]
  rfl

theorem minifiedUpTo_backslash (d : Char) (cs : List Char) :
    minifiedUpTo s ('\\' :: d :: cs) =
      s.flush ++ '\\' :: d :: minifiedUpTo ⟨s.quote, false, false, d == ','⟩ cs := by
  rw [minifiedUpTo, minifyFrom_backslash hescaped, PreludeState.along, List.foldl_cons,
    (next_backslash hescaped).2, List.append_assoc]
  rfl

end Unescaped

/-- Minifying adds and removes spaces only. -/
theorem filter_minifyFrom (s : PreludeState) (cs : List Char) :
    (minifyFrom s cs).filter (fun c => !isSpace c) = cs.filter fun c => !isSpace c := by
  induction cs generalizing s with
  | nil => rfl
  | cons c cs ih =>
      have hwritten : (s.written c).filter (fun c => !isSpace c) = [c].filter fun c => !isSpace c := by
        rw [PreludeState.written]
        split
        · rfl
        · split
          · next h => simp [((Bool.and_eq_true _ _).mp h).2]
          · rw [PreludeState.flush]
            split
            · rw [List.filter_append]
              rfl
            · rfl
      rw [minifyFrom_cons, List.filter_append, hwritten, ih, ← List.filter_append]
      rfl

theorem filter_minifiedUpTo (s : PreludeState) (cs : List Char) :
    (minifiedUpTo s cs).filter (fun c => !isSpace c) = cs.filter fun c => !isSpace c := by
  have hflush : ((s.along cs).flush).filter (fun c => !isSpace c) = [] := by
    rw [PreludeState.flush]
    split
    · rfl
    · rfl
  rw [minifiedUpTo, List.filter_append, filter_minifyFrom, hflush, List.append_nil]

/-- At most one space is added. -/
theorem length_minifyFrom_le (s : PreludeState) (cs : List Char) :
    (minifyFrom s cs).length ≤ cs.length + if s.pending then 1 else 0 := by
  induction cs generalizing s with
  | nil => simp [minifyFrom]
  | cons c cs ih =>
      have hstep : (s.written c).length + (if (s.next c).pending then 1 else 0) ≤
          1 + if s.pending then 1 else 0 := by
        rw [PreludeState.written, PreludeState.next, PreludeState.flush]
        cases s.escaped <;> cases s.quote.isNone && isSpace c <;> cases s.pending <;>
          cases s.afterComma <;> simp
      have hrest := ih (s.next c)
      rw [minifyFrom_cons, List.length_append, List.length_cons]
      omega

/-! ## Quotes and backslashes -/

namespace PreludeState

open Stylesheet.Selector (Quoting quotingAfter quoting Plain Place)

theorem Sound.next {s : PreludeState} (h : s.Sound) (c : Char) : (s.next c).Sound := by
  rw [PreludeState.next]
  split
  · next hescaped =>
      intro hpending
      rw [(h hpending).2] at hescaped
      cases hescaped
  · next hescaped =>
      split
      · next hspace =>
          intro _
          exact ⟨Option.isNone_iff_eq_none.1 ((Bool.and_eq_true _ _).mp hspace).1,
            Bool.eq_false_iff.2 hescaped⟩
      · intro hpending
        cases hpending

/-- Minifying takes quotes and backslashes as the reader of selectors does. -/
theorem quotingAfter_next (s : PreludeState) (c : Char) :
    quotingAfter (s.quote, s.escaped) c = ((s.next c).quote, (s.next c).escaped) := by
  obtain ⟨quote, escaped, pending, afterComma⟩ := s
  rw [next]
  cases escaped with
  | true => rfl
  | false =>
      simp only [Bool.false_eq_true, if_false]
      split
      · next hspace =>
          obtain ⟨hquote, hspace⟩ := (Bool.and_eq_true _ _).mp hspace
          rw [Option.isNone_iff_eq_none.1 hquote]
          exact Selector.quotingAfter_plain (Selector.plain_of_class (by decide) hspace)
      · rw [Stylesheet.Selector.quotingAfter.eq_def]
        dsimp only
        cases c == '\\' with
        | true => rfl
        | false =>
            cases quote with
            | none => rfl
            | some q => rfl

theorem quoting_along (s : PreludeState) (cs : List Char) :
    quoting (s.quote, s.escaped) cs = ((s.along cs).quote, (s.along cs).escaped) := by
  induction cs generalizing s with
  | nil => rfl
  | cons c cs ih =>
      rw [quoting, List.foldl_cons, quotingAfter_next]
      exact ih (s.next c)

end PreludeState

/-! ## Readers that pass over spaces -/

namespace Selector.Place

/-- A place and a state that know the same of quotes and backslashes. -/
def Agrees (p : Place) (s : PreludeState) : Prop := (p.quote, p.escaped) = (s.quote, s.escaped)

theorem Agrees.next {p q : Place} {s : PreludeState} (h : p.Agrees s) {c : Char}
    (hnext : p.next c = some q) : q.Agrees (s.next c) := by
  rw [Agrees, ← (step_of_next hnext).quotingAfter_eq, h, PreludeState.quotingAfter_next]

theorem next_space {p : Place} (hp : (p.quote, p.escaped) = unquoted) {c : Char}
    (hc : isSpace c = true) : p.next c = some p := by
  obtain ⟨openers, quote, escaped⟩ := p
  cases hp
  exact next_of_not_mem (Text.not_mem_of_class rfl hc)

/-- What is written for a character leads to the same place as the character. -/
theorem along_written {p : Place} {s : PreludeState} (h : p.Agrees s) (hs : s.Sound) (c : Char) :
    p.along (s.written c) = p.next c := by
  have hchar : ∀ q : Place, q.along [c] = q.next c := by
    intro q
    rw [along]
    cases q.next c with
    | none => rfl
    | some r => rfl
  rw [PreludeState.written]
  split
  · exact hchar p
  · next hescaped =>
      split
      · next hspace =>
          obtain ⟨hquote, hspace⟩ := (Bool.and_eq_true _ _).mp hspace
          refine (next_space ?_ hspace).symm
          rw [h, Option.isNone_iff_eq_none.1 hquote, Bool.eq_false_iff.2 hescaped]
          rfl
      · rw [PreludeState.flush]
        split
        · next hpending =>
            obtain ⟨hquote, hescaped⟩ := hs ((Bool.and_eq_true _ _).mp hpending).1
            have hspace : p.next ' ' = some p := next_space (by rw [h, hquote, hescaped]; rfl) rfl
            rw [List.singleton_append, along, hspace]
            exact hchar p
        · exact hchar p

/-- The cutting of lists comes to the same place in both texts. -/
theorem along_minifyFrom {p : Place} {s : PreludeState} (h : p.Agrees s) (hs : s.Sound)
    (cs : List Char) : p.along (minifyFrom s cs) = p.along cs := by
  induction cs generalizing p s with
  | nil => rfl
  | cons c cs ih =>
      rw [minifyFrom_cons, along_append, along_written h hs, along]
      cases hnext : p.next c with
      | none => rfl
      | some q => exact ih (h.next hnext) (hs.next c)

end Selector.Place

/-! ## Brackets -/

namespace Selector

variable {opening closing : Char} {depth : Nat} {quote : Option Char} {cs inside : List Char}

/-- Spaces that have been held back may come out inside brackets. -/
theorem Inside.flush (hbrackets : Brackets opening closing) {s : PreludeState} (hs : s.Sound)
    (hquote : s.quote = quote) (h : Inside opening closing depth quote cs) :
    Inside opening closing depth quote (s.flush ++ cs) := by
  rw [PreludeState.flush]
  split
  · next hpending =>
      rw [(hs ((Bool.and_eq_true _ _).mp hpending).1).1] at hquote
      subst hquote
      refine .other ?_ h
      rcases hbrackets.cases with ⟨rfl, rfl⟩ | ⟨rfl, rfl⟩
      · decide
      · decide
  · exact h

/-- What is written for a text in brackets is a text in brackets. -/
theorem Inside.minified (hbrackets : Brackets opening closing)
    (h : Inside opening closing depth quote inside) {s : PreludeState} (hs : s.Sound)
    (hquote : s.quote = quote) (hescaped : s.escaped = false) :
    Inside opening closing depth quote (minifiedUpTo s inside) := by
  have hkinds : ∀ c ∈ [opening, closing], c ∉ ['\\', '"', '\''] ∧ isSpace c = false := by
    rcases hbrackets.cases with ⟨rfl, rfl⟩ | ⟨rfl, rfl⟩
    · simp [isSpace]
    · simp [isSpace]
  have hsound : ∀ quote comma, PreludeState.Sound ⟨quote, false, false, comma⟩ :=
    fun _ _ h => absurd h Bool.false_ne_true
  induction h generalizing s with
  | nil =>
      have hflush : Inside opening closing 0 none (s.flush ++ []) :=
        Inside.flush hbrackets hs hquote .nil
      rwa [List.append_nil] at hflush
  | escaped d _ ih =>
      rw [minifiedUpTo_backslash hescaped]
      exact Inside.flush hbrackets hs hquote (.escaped d (ih (hsound _ _) hquote rfl))
  | quoted hc _ ih =>
      rw [minifiedUpTo_visible hescaped hc (by rw [hquote]; rfl), hquote]
      exact Inside.flush hbrackets hs hquote (.quoted hc (ih (hsound _ _) rfl rfl))
  | quote hc _ ih =>
      have hspace : ∀ c ∈ ['"', '\''], isSpace c = false := by simp [isSpace]
      have hvisible := hspace _ (by simpa using hc)
      rw [minifiedUpTo_visible hescaped (ne_of_quote hc) (by rw [hvisible, Bool.and_false]), hquote]
      refine Inside.flush hbrackets hs hquote (.quote hc (ih (hsound _ _) ?_ rfl))
      exact if_pos hc
  | opening _ ih =>
      obtain ⟨hplain, hvisible⟩ := hkinds opening (by simp)
      simp only [List.mem_cons, List.not_mem_nil, or_false, not_or] at hplain
      rw [minifiedUpTo_visible hescaped hplain.1 (by rw [hvisible, Bool.and_false]), hquote]
      refine Inside.flush hbrackets hs hquote (.opening (ih (hsound _ _) ?_ rfl))
      simp [quoteAfter, hplain]
  | closing _ ih =>
      obtain ⟨hplain, hvisible⟩ := hkinds closing (by simp)
      simp only [List.mem_cons, List.not_mem_nil, or_false, not_or] at hplain
      rw [minifiedUpTo_visible hescaped hplain.1 (by rw [hvisible, Bool.and_false]), hquote]
      refine Inside.flush hbrackets hs hquote (.closing (ih (hsound _ _) ?_ rfl))
      simp [quoteAfter, hplain]
  | @other depth c cs hc _ ih =>
      cases hspace : isSpace c with
      | true =>
          rw [minifiedUpTo_space hescaped hquote hspace]
          exact ih (fun _ => ⟨hquote, hescaped⟩) hquote hescaped
      | false =>
          have hplain := hc
          simp only [List.mem_cons, List.not_mem_nil, or_false, not_or] at hplain
          rw [minifiedUpTo_visible hescaped hplain.1 (by rw [hspace, Bool.and_false]), hquote]
          refine Inside.flush hbrackets hs hquote (.other hc (ih (hsound _ _) ?_ rfl))
          simp [quoteAfter, hplain]

end Selector

/-! ## Gaps -/

/-- Nothing is open.  Perhaps spaces have been held back, and perhaps a comma came last. -/
def gap (pending afterComma : Bool) : PreludeState := ⟨none, false, pending, afterComma⟩

theorem sound_gap (pending afterComma : Bool) : (gap pending afterComma).Sound :=
  fun _ => ⟨rfl, rfl⟩

variable {pending comma : Bool} {c : Char}

theorem minifyFrom_gap_space (hc : isSpace c = true) (cs : List Char) :
    minifyFrom (gap pending comma) (c :: cs) = minifyFrom (gap true comma) cs :=
  minifyFrom_space rfl rfl hc cs

/-- A plain character that is no space. -/
theorem minifyFrom_gap_plain (hc : Selector.Plain c) (hspace : isSpace c = false) (cs : List Char) :
    minifyFrom (gap pending comma) (c :: cs) =
      (gap pending comma).flush ++ c :: minifyFrom (gap false (c == ',')) cs := by
  simp only [Selector.Plain, List.mem_cons, List.not_mem_nil, or_false, not_or] at hc
  rw [minifyFrom_visible rfl hc.1 (by rw [hspace, Bool.and_false]), gap]
  simp [quoteAfter, hc, gap]

/-- Nothing comes out in front of it if no spaces have been held back. -/
theorem minifyFrom_plain (hc : Selector.Plain c) (hspace : isSpace c = false)
    (hcomma : (c == ',') = false) (comma : Bool) (cs : List Char) :
    minifyFrom (gap false comma) (c :: cs) = c :: minifyFrom (gap false false) cs := by
  rw [minifyFrom_gap_plain hc hspace, hcomma]
  rfl

/-- What comes out in front of a character that is no space depends on what was before, the rest does
not. -/
theorem minifyFrom_gap (hspace : isSpace c = false) (cs : List Char) :
    minifyFrom (gap pending comma) (c :: cs) =
      (gap pending comma).flush ++ minifyFrom {} (c :: cs) := by
  rw [minifyFrom_cons, minifyFrom_cons]
  simp [PreludeState.written, PreludeState.next, gap, hspace, PreludeState.flush]

theorem minifyFrom_spaces {cs : List Char} (h : Spaces cs) (pending comma : Bool) :
    minifyFrom (gap pending comma) cs = [] := by
  induction cs generalizing pending with
  | nil => rfl
  | cons c cs ih =>
      obtain ⟨hc, hcs⟩ := List.forall_mem_cons.1 h
      rw [minifyFrom_gap_space hc]
      exact ih hcs true

/-- Behind a comma it does not matter whether spaces have been held back. -/
theorem minifyFrom_gap_comma (pending : Bool) (cs : List Char) :
    minifyFrom (gap pending true) cs = minifyFrom (gap false true) cs := by
  cases cs with
  | nil => rfl
  | cons c cs =>
      cases hc : isSpace c with
      | true => rw [minifyFrom_gap_space hc, minifyFrom_gap_space hc]
      | false =>
          rw [minifyFrom_gap hc, minifyFrom_gap hc]
          cases pending with
          | true => rfl
          | false => rfl

/-- Spaces that have been held back come out, if anything does. -/
theorem minifyFrom_gap_pending (cs : List Char) :
    minifyFrom (gap true false) cs =
      (if Text.isBlank cs then [] else [' ']) ++ minifyFrom (gap false true) cs := by
  induction cs with
  | nil => rfl
  | cons c cs ih =>
      cases hc : isSpace c with
      | true =>
          have hblank : Text.isBlank (c :: cs) = Text.isBlank cs := by simp [Text.isBlank, hc]
          rw [minifyFrom_gap_space hc, minifyFrom_gap_space hc, ih, hblank, minifyFrom_gap_comma true]
      | false =>
          have hblank : Text.isBlank (c :: cs) = false := by simp [Text.isBlank, hc]
          rw [minifyFrom_gap hc, minifyFrom_gap hc, hblank]
          rfl

namespace Selector

/-- A text in brackets is minified up to the closing one, and is what is read up to it afterwards. -/
theorem untilClose_minifiedUpTo {opening closing : Char} {cs inside : List Char}
    (hbrackets : Brackets opening closing) (h : untilClose opening closing 0 none cs = .ok inside) :
    ∃ rest, cs = inside ++ closing :: rest ∧
      minifyFrom (gap false false) cs =
        minifiedUpTo (gap false false) inside ++ closing :: minifyFrom (gap false false) rest ∧
      ∀ tail, untilClose opening closing 0 none
        (minifiedUpTo (gap false false) inside ++ closing :: tail) =
          .ok (minifiedUpTo (gap false false) inside) := by
  obtain ⟨rest, rfl, hinside⟩ := inside_of_untilClose h
  refine ⟨rest, rfl, ?_, fun tail => ?_⟩
  · have hkinds : closing ≠ '\\' ∧ isSpace closing = false ∧ quoteAfter closing none = none ∧
        (closing == ',') = false := by
      rcases hbrackets.cases with ⟨rfl, rfl⟩ | ⟨rfl, rfl⟩
      · decide
      · decide
    obtain ⟨hback, hspace, hplain, hcomma⟩ := hkinds
    have hclosed := (PreludeState.quoting_along (gap false false) inside).symm.trans
      (hinside.quoting hbrackets)
    obtain ⟨hquote, hescaped⟩ := Prod.mk.inj hclosed
    rw [minifyFrom_append, minifyFrom_visible hescaped hback (by rw [hspace, Bool.and_false]), hquote,
      hplain, hcomma, minifiedUpTo, List.append_assoc]
    rfl
  · exact (hinside.minified hbrackets (sound_gap false false) rfl rfl).untilClose_eq hbrackets tail

end Selector

end Stylesheet
