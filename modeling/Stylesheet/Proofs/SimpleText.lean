import Stylesheet.Proofs.SafeTree
import Stylesheet.Proofs.Weight

/-!
# Simple texts

A *simple* text is made of letters, digits, spaces, semicolons, curly brackets and a few other characters
of selectors and declarations.  Its semicolons and curly brackets are tokens of their own, and all other
tokens are *neutral*: they open, close and end nothing (`simple_tokenize`).

Up to a closing bracket a simple text is tame, and what follows the bracket is cut into tokens by itself.
So the tokens of a simple text are found piece by piece, where the pieces stand between closing brackets.

A simple text without semicolons and brackets is a head of an item in a block (`isHead_of_simple`).  One
with a closing bracket is not (`isHead_eq_false`).
-/

namespace Stylesheet

open Stylesheet.Text (headIs isSpace Spaces Tame)
open Stylesheet.Token (isEdge isBlank)

/-! ## Characters -/

namespace Text

/-- The characters of a simple text besides letters and digits. -/
def simpleSigns : List Char := [' ', '.', '#', ':', ';', ',', '-', '\x7b', '\x7d']

/-- A character of a simple text. -/
def isSimple (c : Char) : Bool := c.isAlphanum || simpleSigns.contains c

theorem not_mem_of_isSimple {cs : List Char} (h : ∀ c ∈ cs, isSimple c = true) {d : Char}
    (hd : isSimple d = false) : d ∉ cs := by
  intro hmem
  rw [h d hmem] at hd
  cases hd

theorem isSimple_cases {c : Char} (h : isSimple c = true) :
    c.isAlphanum = true ∨ c ∈ simpleSigns := by
  rwa [isSimple, Bool.or_eq_true, List.contains_iff_mem] at h

theorem isTame_of_isSimple {c : Char} (h : isSimple c = true) (hc : c ≠ '\x7d') :
    isTame c = true := by
  rcases isSimple_cases h with hletter | hsign
  · rw [isTame, hletter, Bool.true_or]
  · have hall : simpleSigns.all (fun d => d == '\x7d' || isTame d) = true := rfl
    have hsafe := List.all_eq_true.1 hall c hsign
    rw [Bool.or_eq_true, beq_iff_eq] at hsafe
    exact hsafe.resolve_left hc

theorem isSimple_toLower {c : Char} (h : isSimple c = true) : isSimple c.toLower = true := by
  by_cases hletter : c.isAlpha = true
  · have hlower : c.toLower.isAlpha = true := by rwa [Char.isAlpha_toLower_eq_isAlpha]
    rw [isSimple, Char.isAlphanum, hlower]
    rfl
  · have hupper : ¬c.isUpper = true := by
      intro hupper
      exact hletter (by rw [Char.isAlpha, hupper, Bool.true_or])
    rwa [Char.toLower_eq_of_not_isUpper hupper]

/-- The spaces of a simple text are blanks. -/
theorem isSpace_eq_isBlank {c : Char} (h : isSimple c = true) : isSpace c = Token.isBlank c := by
  rcases isSimple_cases h with hletter | hsign
  · have hspace : isSpace c = false := by
      have hlight := isLight_of_isAlphanum hletter
      simp only [isLight, Bool.or_eq_false_iff] at hlight
      exact hlight.1.1.1.1
    cases hblank : Token.isBlank c with
    | false => exact hspace
    | true =>
        have hspaces : Spaces [c] := Node.spaces_of_blanks (by simpa using hblank)
        exact hspaces c (List.mem_singleton_self c)
  · have hall : simpleSigns.all (fun d => isSpace d == Token.isBlank d) = true := rfl
    exact eq_of_beq (List.all_eq_true.1 hall c hsign)

/-- Up to a closing bracket a simple text is tame. -/
theorem tame_of_isSimple {cs : List Char} (h : ∀ c ∈ cs, isSimple c = true) (hcs : '\x7d' ∉ cs) :
    Tame cs := by
  have hlower : '(' ∉ lower cs := by
    intro hmem
    obtain ⟨c, hc, heq⟩ := List.mem_map.1 hmem
    rw [toLower_eq_iff rfl] at heq
    rw [heq] at hc
    exact not_mem_of_isSimple h rfl hc
  refine ⟨fun c hc => isTame_of_isSimple (h c hc) ?_, ?_, ?_⟩
  · rintro rfl
    exact hcs hc
  · exact occurs_eq_false_of_not_mem (d := '/') (by simp) (not_mem_of_isSimple h rfl)
  · exact occurs_eq_false_of_not_mem (d := '(') (by simp) hlower

end Text

namespace Token

open Text (isSimple)

/-- A token that opens, closes and ends nothing, and starts an item unless it is blank. -/
structure Neutral (t : Token) : Prop where
  /-- The kind is one of these. -/
  kind : t.kind ∈ [.blank, .ident, .number, .hash, .delim]
  /-- Its characters are simple, and none of them is a semicolon or a curly bracket. -/
  chars : ∀ c ∈ t.text, isSimple c = true ∧ isEdge c = false
  /-- It has a first character, and is blank just when this is. -/
  first : ∃ c cs, t.text = c :: cs ∧ (t.kind = .blank ↔ isBlank c = true)

/-- A token of a simple text. -/
inductive Simple : Token → Prop
  | semicolon : Simple semicolon
  | openCurly : Simple openCurly
  | closeCurly : Simple closeCurly
  | neutral {t : Token} : t.Neutral → Simple t

/-- A token has a first character, and is blank just when this is. -/
theorem exists_first_char {cs : List Char} {t : Token} (h : t ∈ tokenize cs) :
    ∃ c cs, t.text = c :: cs ∧ (t.kind = .blank ↔ isBlank c = true) := by
  have hshaped := shaped_tokenize h
  obtain ⟨c, rest, -, rfl⟩ := exists_scan_of_mem h
  refine ⟨c, _, rfl, ?_⟩
  show (scan c rest).1 = .blank ↔ isBlank c = true
  constructor
  · intro hkind
    rw [Shaped, hkind] at hshaped
    exact hshaped c List.mem_cons_self
  · intro hc
    rw [scan.eq_def, if_pos hc]

theorem isMark_of_isEdge {c : Char} (h : isEdge c = true) : isMark c = true := by
  rcases isEdge_iff.1 h with rfl | rfl | rfl
  · rfl
  · rfl
  · rfl

/-- A tame token without a closing bracket is simple if its characters are. -/
theorem simple_of_tame {cs : List Char} {t : Token} (h : t ∈ tokenize cs) (htame : t.Tame)
    (hchars : ∀ c ∈ t.text, isSimple c = true) (hclose : '\x7d' ∉ t.text) : t.Simple := by
  have hshaped := shaped_tokenize h
  have hmarks := htame.marks_eq
  have hmark : ∀ d, t.kind.marks? = some [d] → isSimple d = true ∧ d ≠ '\x7d' := by
    intro d hd
    have hmem : d ∈ t.text := by
      have hsingle : d ∈ marks t.text := by
        rw [← Option.some.inj (hd.symm.trans hmarks)]
        exact List.mem_singleton_self d
      exact (List.mem_filter.1 hsingle).1
    refine ⟨hchars d hmem, ?_⟩
    rintro rfl
    exact hclose hmem
  have hneutral : t.kind ∈ [.blank, .ident, .number, .hash, .delim] → t.Simple := by
    intro hkind
    have hnone : t.kind.marks? = some [] := by
      have hall : ∀ kind ∈ [Kind.blank, .ident, .number, .hash, .delim], kind.marks? = some [] := by
        decide
      exact hall t.kind hkind
    refine .neutral ⟨hkind, fun c hc => ⟨hchars c hc, ?_⟩, exists_first_char h⟩
    rw [← Bool.not_eq_true]
    intro hedge
    have hmem : c ∈ marks t.text := List.mem_filter.2 ⟨hc, isMark_of_isEdge hedge⟩
    rw [← Option.some.inj (hnone.symm.trans hmarks)] at hmem
    exact List.not_mem_nil hmem
  cases hkind : t.kind with
  | semicolon =>
      rw [htame.semicolon_eq hkind]
      exact .semicolon
  | opening bracket =>
      cases bracket with
      | curly =>
          rw [htame.openCurly_eq hkind]
          exact .openCurly
      | paren => exact absurd (hmark '(' (by rw [hkind]; rfl)).1 Bool.false_ne_true
      | square => exact absurd (hmark '[' (by rw [hkind]; rfl)).1 Bool.false_ne_true
  | closing bracket =>
      cases bracket with
      | curly => exact absurd rfl (hmark '\x7d' (by rw [hkind]; rfl)).2
      | paren => exact absurd (hmark ')' (by rw [hkind]; rfl)).1 Bool.false_ne_true
      | square => exact absurd (hmark ']' (by rw [hkind]; rfl)).1 Bool.false_ne_true
  | legacyMark =>
      rw [Shaped, hkind] at hshaped
      rcases hshaped with htext | htext
      · exact absurd (hchars '>' (by rw [htext]; simp)) Bool.false_ne_true
      · exact absurd (hchars '<' (by rw [htext]; simp)) Bool.false_ne_true
  | blank | ident | number | hash | delim => exact hneutral (by simp [hkind])
  | comment | string | badString | url | badUrl | atKeyword =>
      rw [hkind] at hmarks
      cases hmarks

theorem mem_of_mem_tokenize {cs : List Char} {t : Token} (h : t ∈ tokenize cs) {c : Char}
    (hc : c ∈ t.text) : c ∈ cs := by
  rw [← textOf_tokenize cs]
  exact List.mem_flatMap.2 ⟨t, h, hc⟩

/-- The tokens of a simple text without a closing bracket are simple. -/
theorem simple_of_not_mem {cs : List Char} (h : ∀ c ∈ cs, isSimple c = true) (hclose : '\x7d' ∉ cs) :
    ∀ t ∈ tokenize cs, t.Simple := by
  intro t ht
  refine simple_of_tame ht (tame_tokenize (Text.tame_of_isSimple h hclose) t ht) ?_ ?_
  · exact fun c hc => h c (mem_of_mem_tokenize ht hc)
  · exact fun hc => hclose (mem_of_mem_tokenize ht hc)

/-- A closing bracket cuts a simple text in two: both sides are cut into tokens by themselves. -/
theorem tokenize_append_closeCurly {x : List Char} (h : ∀ c ∈ x, isSimple c = true)
    (hclose : '\x7d' ∉ x) (y : List Char) :
    tokenize (x ++ '\x7d' :: y) = tokenize x ++ closeCurly :: tokenize y := by
  -- Before an edge the tokens are the same whatever the edge is, so an opening bracket will do.
  have htame : Text.Tame (x ++ ['\x7b']) := by
    refine Text.tame_of_isSimple ?_ (by simpa using hclose)
    exact List.forall_mem_append.2 ⟨h, by simp [isSimple, Text.simpleSigns]⟩
  obtain ⟨ts, hts, htext, -⟩ := Component.headEnd_openCurly.tokenize htame
  have hfront := tokenize_append_of_edge rfl hts htext .nil
  rw [List.append_nil, tokenize_nil, List.append_nil] at hfront
  rw [tokenize_append_of_edge rfl hts htext (.cons rfl), tokenize_closeCurly, hfront]

/-- The tokens of a simple text are simple. -/
theorem simple_tokenize {cs : List Char} (h : ∀ c ∈ cs, isSimple c = true) :
    ∀ t ∈ tokenize cs, t.Simple := by
  by_cases hclose : '\x7d' ∈ cs
  · obtain ⟨x, y, rfl, hfirst⟩ := List.eq_append_cons_of_mem hclose
    obtain ⟨hx, hrest⟩ := List.forall_mem_append.1 h
    rw [tokenize_append_closeCurly hx hfirst]
    exact List.forall_mem_append.2 ⟨simple_of_not_mem hx hfirst,
      List.forall_mem_cons.2 ⟨.closeCurly, simple_tokenize (List.forall_mem_cons.1 hrest).2⟩⟩
  · exact simple_of_not_mem h hclose
termination_by cs.length

theorem Simple.edge_cases {t : Token} (h : t.Simple) {c : Char} (hc : c ∈ t.text)
    (hedge : isEdge c = true) : (c = ';' ∧ t = Token.semicolon) ∨
      (c = '\x7b' ∧ t = Token.openCurly) ∨ (c = '\x7d' ∧ t = Token.closeCurly) := by
  cases h with
  | semicolon => exact .inl ⟨List.mem_singleton.1 hc, rfl⟩
  | openCurly => exact .inr (.inl ⟨List.mem_singleton.1 hc, rfl⟩)
  | closeCurly => exact .inr (.inr ⟨List.mem_singleton.1 hc, rfl⟩)
  | neutral hneutral =>
      rw [(hneutral.chars c hc).2] at hedge
      cases hedge

/-- The characters of a simple token are simple. -/
theorem Simple.chars {t : Token} (h : t.Simple) : ∀ c ∈ t.text, isSimple c = true := by
  cases h with
  | semicolon => exact List.forall_mem_singleton.2 rfl
  | openCurly => exact List.forall_mem_singleton.2 rfl
  | closeCurly => exact List.forall_mem_singleton.2 rfl
  | neutral hneutral => exact fun c hc => (hneutral.chars c hc).1

theorem Simple.kind {t : Token} (h : t.Simple) :
    t.kind ∈ [.semicolon, .opening .curly, .closing .curly, .blank, .ident, .number, .hash, .delim] := by
  cases h with
  | semicolon | openCurly | closeCurly => simp [Token.semicolon, Token.openCurly, Token.closeCurly]
  | neutral hneutral => exact List.mem_append_right [_, _, _] hneutral.kind

/-- The only brackets among simple tokens are curly ones. -/
theorem Simple.eq_curly {t : Token} (h : t.Simple) {bracket : Bracket}
    (ht : t.kind = .opening bracket) : bracket = .curly := by
  have hkind := h.kind
  rw [ht] at hkind
  simpa using hkind

theorem Simple.eq_closeCurly {t : Token} (h : t.Simple) {bracket : Bracket}
    (ht : t.kind = .closing bracket) : t = Token.closeCurly := by
  cases h with
  | semicolon | openCurly => cases ht
  | closeCurly => rfl
  | neutral hneutral =>
      have hkind := hneutral.kind
      rw [ht] at hkind
      simp at hkind

end Token

namespace Component

open Text (isSimple)

/-! ## Heads -/

theorem mem_tokensOf {t : Token} {cs : List Component} :
    t ∈ tokensOf cs ↔ ∃ c ∈ cs, t ∈ tokens c := by
  induction cs with
  | nil => simp
  | cons c cs ih => simp [ih]

theorem isSimple_of_mem_textOf {cs : List Component} (h : ∀ t ∈ tokensOf cs, t.Simple) {c : Char}
    (hc : c ∈ textOf cs) : isSimple c = true := by
  rw [← textOf_tokensOf] at hc
  obtain ⟨t, ht, hmem⟩ := List.mem_flatMap.1 hc
  exact (h t ht).chars c hmem

/-- Among simple tokens nothing but tokens stays inside a head. -/
theorem eq_token_of_isInner {around : Option Bracket} {nested : Bool} {c : Component}
    (h : Closed around c ∨ CutOff c) (hsimple : ∀ t ∈ tokens c, t.Simple)
    (hinner : isInner nested c = true) : ∃ t, c = .token t := by
  cases c with
  | token t => exact ⟨t, rfl⟩
  | block bracket opener body closer =>
      obtain rfl := (hsimple opener (by simp [tokens])).eq_curly (kind_opener h)
      cases hinner

/-- A neutral token starts an item unless it is blank, and it stays inside every head. -/
theorem isInner_of_neutral {t : Token} (h : t.Neutral) (nested : Bool) :
    isInner nested (.token t) = true ∧ (t.kind ≠ .blank → startsItem (.token t) = true) ∧
      ∀ around, Closed around (.token t) := by
  have hkind := h.kind
  rw [isInner, startsItem]
  cases hk : t.kind with
  | blank => exact ⟨rfl, fun hblank => absurd rfl hblank, fun around => by rw [Closed, hk]; trivial⟩
  | ident | number | hash | delim =>
      exact ⟨rfl, fun _ => rfl, fun around => by rw [Closed, hk]; trivial⟩
  | comment | string | badString | url | badUrl | atKeyword | semicolon | legacyMark | opening
  | closing =>
      rw [hk] at hkind
      simp at hkind

section Heads

variable {x : List Char} {e : Char} {t : Token} {stop : Component → Bool}

/-- A simple text without semicolons and brackets is cut into neutral tokens before the end of a head. -/
theorem exists_neutral (hend : HeadEnd e t stop)
    (hx : ∀ c ∈ x, isSimple c = true ∧ isEdge c = false) :
    ∃ ts, Token.tokenize (x ++ [e]) = ts ++ [t] ∧ Token.textOf ts = x ∧
      ∀ u ∈ ts, u.Neutral := by
  have hmark : isSimple e = true ∧ '\x7d' ≠ e := by
    rcases (by simpa using hend.mark : e = ';' ∨ e = '\x7b') with rfl | rfl
    · exact ⟨rfl, by decide⟩
    · exact ⟨rfl, by decide⟩
  have hall : ∀ c ∈ x ++ [e], isSimple c = true :=
    List.forall_mem_append.2 ⟨fun c hc => (hx c hc).1, List.forall_mem_singleton.2 hmark.1⟩
  have hclose : '\x7d' ∉ x ++ [e] := by
    rw [List.mem_append, List.mem_singleton, not_or]
    exact ⟨fun hmem => Bool.false_ne_true (hx _ hmem).2.symm, hmark.2⟩
  obtain ⟨ts, htokens, htext, -⟩ := hend.tokenize (Text.tame_of_isSimple hall hclose)
  refine ⟨ts, htokens, htext, fun u hu => ?_⟩
  have hsimple : u.Simple := by
    refine Token.simple_tokenize hall u ?_
    rw [htokens]
    exact List.mem_append_left _ hu
  have hedge : ∀ c ∈ u.text, isEdge c = false := by
    intro c hc
    refine (hx c ?_).2
    rw [← htext]
    exact List.mem_flatMap.2 ⟨u, hu, hc⟩
  cases hsimple with
  | semicolon => exact absurd (hedge ';' (List.mem_singleton_self _)).symm Bool.false_ne_true
  | openCurly => exact absurd (hedge '\x7b' (List.mem_singleton_self _)).symm Bool.false_ne_true
  | closeCurly => exact absurd (hedge '\x7d' (List.mem_singleton_self _)).symm Bool.false_ne_true
  | neutral hneutral => exact hneutral

theorem tokensOf_map_token (ts : List Token) : tokensOf (ts.map .token) = ts := by
  induction ts with
  | nil => exact tokensOf_nil
  | cons t ts ih => rw [List.map_cons, tokensOf_cons, ih, tokens, List.singleton_append]

/-- A simple text without semicolons and brackets is the head of a rule or declaration. -/
theorem isHead_of_simple (nested : Bool) (hend : HeadEnd e t stop)
    (hx : ∀ c ∈ x, isSimple c = true ∧ isEdge c = false) (hne : x ≠ [])
    (hstart : headIs isBlank x = false) : isHead nested startsItem stop (x ++ [e]) = true := by
  obtain ⟨ts, htokens, htext, hneutral⟩ := exists_neutral hend hx
  have hclosed : AllClosed (innermost []) (ts.map .token) := by
    rw [allClosed_iff, List.forall_mem_map]
    exact fun u hu => (isInner_of_neutral (hneutral u hu) nested).2.2 _
  have hgroup : group (ts ++ [t]) = groupFrom [t] (ts.map Component.token).reverse [] := by
    have hfrom := groupFrom_tokensOf (ts.map .token) hclosed [t] []
    rwa [tokensOf_map_token, List.append_nil] at hfrom
  cases ts with
  | nil => exact absurd htext.symm hne
  | cons first rest =>
      rw [isHead, htokens]
      refine areHead_of_groupFrom hend ?_ hgroup ?_
      · intro c hc
        obtain ⟨u, hu, rfl⟩ := List.mem_map.1 (List.mem_reverse.1 hc)
        exact (isInner_of_neutral (hneutral u hu) nested).1
      · intro c cs hc
        rcases head_of_group hc with rfl | ⟨bracket, body, closer, rfl, -⟩
        · have hfirst := hneutral first List.mem_cons_self
          refine (isInner_of_neutral hfirst nested).2.1 fun hblank => ?_
          obtain ⟨c, cs, hfront, hiff⟩ := hfirst.first
          rw [← htext, Token.textOf_cons, hfront, List.cons_append, headIs, hiff.1 hblank] at hstart
          cases hstart
        · rfl

/-- In a block, a simple text with a closing bracket is no head. -/
theorem isHead_eq_false {start : Component → Bool} (he : isEdge e = true)
    (hstop : ∀ c, stop c = true → ∃ u, tokens c = [u] ∧ u.text = [e])
    (hx : ∀ c ∈ x, isSimple c = true) (hclose : '\x7d' ∈ x) :
    isHead true start stop (x ++ [e]) = false := by
  rw [← Bool.not_eq_true]
  intro hhead
  obtain ⟨c, cs, ⟨hclosed, hgives⟩, -, -, hinner⟩ := gives_of_isHead he hstop hhead
  have htokens := hgives [] .nil
  rw [List.append_nil, Token.tokenize_nil, List.append_nil] at htokens
  -- The bracket is a token of its own, and this token is one of the component values.
  rw [← Token.textOf_tokenize x] at hclose
  obtain ⟨u, hu, hmem⟩ := List.mem_flatMap.1 hclose
  have hsimple := Token.simple_tokenize hx
  have hcurly : u = Token.closeCurly := by
    rcases (hsimple u hu).edge_cases hmem rfl with ⟨h, -⟩ | ⟨h, -⟩ | ⟨-, h⟩
    · cases h
    · cases h
    · exact h
  rw [htokens] at hu hsimple
  obtain ⟨d, hd, hud⟩ := mem_tokensOf.1 hu
  obtain ⟨v, rfl⟩ := eq_token_of_isInner (.inl (allClosed_iff.1 hclosed d hd))
    (fun v hv => hsimple v (mem_tokensOf.2 ⟨d, hd, hv⟩)) (hinner d hd)
  rw [tokens, List.mem_singleton] at hud
  have hv := hinner _ hd
  rw [← hud, hcurly] at hv
  cases hv

end Heads

end Component

end Stylesheet
