import Stylesheet.Proofs.Legible
import Stylesheet.Proofs.TokenShape

/-!
# Component values in a longer text

Some component values stand at the start of a text, in a block or outside all blocks, and the text
goes on (`Cut`).  This module takes such a text apart along its component values: after some of them
come the others (`Cut.append`), inside a block come its contents (`Cut.block`), and what is a token of
its own is the first component value (`Cut.token`).  A head that is found in this way is legible by
itself (`Cut.isHead`).
-/

namespace Stylesheet.Component

/-- The tokens of a text are those of some component values, as grouping makes them in a block or
outside all blocks, and others that may only follow at the end of that block. -/
structure Cut (nested : Bool) (x : List Char) (cs : List Component) (ts : List Token) : Prop where
  /-- The tokens are these. -/
  tokens : Token.tokenize x = tokensOf cs ++ ts
  /-- Grouping makes these component values. -/
  grouped : Grouped (around nested) cs
  /-- Nothing is cut off before the end. -/
  closed : ts ≠ [] → AllClosed (around nested) cs
  /-- The block ends with its bracket. -/
  stop : ∀ t ∈ ts.head?, t.kind = .closing .curly

namespace Cut

variable {nested : Bool} {x : List Char} {ts : List Token}

theorem shaped {cs : List Component} (h : Cut nested x cs ts) : ∀ t ∈ tokensOf cs, t.Shaped := by
  intro t ht
  have hmem : t ∈ Token.tokenize x := by
    rw [h.tokens]
    exact List.mem_append_left ts ht
  exact Token.shaped_tokenize hmem

theorem shaped_rest {cs : List Component} (h : Cut nested x cs ts) : ∀ t ∈ ts, t.Shaped := by
  intro t ht
  have hmem : t ∈ Token.tokenize x := by
    rw [h.tokens]
    exact List.mem_append_right _ ht
  exact Token.shaped_tokenize hmem

theorem text_eq {cs : List Component} (h : Cut nested x cs ts) :
    x = textOf cs ++ Token.textOf ts := by
  rw [← Token.textOf_tokenize x, h.tokens, Token.textOf_append, textOf_tokensOf]

/-- After some of the component values come the others. -/
theorem append {a b : List Component} (h : Cut nested x (a ++ b) ts) :
    ∃ y, x = textOf a ++ y ∧ Cut nested y b ts := by
  have htext := h.text_eq
  rw [textOf_append, List.append_assoc] at htext
  refine ⟨textOf b ++ Token.textOf ts, htext, ?_, h.grouped.right, ?_, h.stop⟩
  · have htokens := h.tokens
    rw [tokensOf_append, List.append_assoc] at htokens
    exact (Token.eq_tokenize_of_append htokens (by rw [textOf_tokensOf, htext])).symm
  · intro hts
    have hclosed := h.closed hts
    rw [allClosed_iff] at hclosed ⊢
    exact fun c hc => hclosed c (List.mem_append_right a hc)

/-- What stands before other component values is closed. -/
theorem allClosed {a b : List Component} (h : Cut nested x (a ++ b) ts) (hb : b ≠ []) :
    AllClosed (around nested) a :=
  (h.grouped.closed_of_append hb).1

theorem block_cases {opener : Token} {body rest : List Component} {closer : Option Token}
    (h : Cut nested x (.block .curly opener body closer :: rest) ts) :
    opener.kind = .opening .curly ∧
      ((∃ t, closer = some t ∧ t.kind = .closing .curly ∧ AllClosed (some .curly) body) ∨
        closer = none ∧ rest = [] ∧ ts = [] ∧ Grouped (some .curly) body) := by
  have hgrouped := h.grouped
  rw [Grouped] at hgrouped
  rcases hgrouped with ⟨hclosed, -⟩ | ⟨hcut, hrest⟩
  · rw [Closed] at hclosed
    obtain ⟨hkind, ⟨t, hcloser, ht⟩, hbody⟩ := hclosed
    exact ⟨hkind, .inl ⟨t, hcloser, ht, hbody⟩⟩
  · rw [CutOff] at hcut
    obtain ⟨hkind, hcloser, hbody⟩ := hcut
    refine ⟨hkind, .inr ⟨hcloser, hrest, ?_, hbody⟩⟩
    cases ts with
    | nil => rfl
    | cons t ts =>
        have hclosed := h.closed (by simp)
        rw [AllClosed, Closed, hcloser] at hclosed
        obtain ⟨⟨-, ⟨t, ht, -⟩, -⟩, -⟩ := hclosed
        cases ht

/-- Inside a block come its contents, and then its closing bracket unless the text ends first. -/
theorem block {opener : Token} {body rest : List Component} {closer : Option Token}
    (h : Cut nested x (.block .curly opener body closer :: rest) ts) :
    ∃ y, x = '\x7b' :: y ∧ opener.text = ['\x7b'] ∧
      Cut true y body (closer.toList ++ (tokensOf rest ++ ts)) ∧
      ((∃ t, closer = some t ∧ t.text = ['\x7d']) ∨ closer = none ∧ rest = [] ∧ ts = []) := by
  obtain ⟨hkind, hcases⟩ := h.block_cases
  have hopener : opener.text = ['\x7b'] := by
    have hshaped := h.shaped opener (by simp [Component.tokens])
    rwa [Token.Shaped, hkind] at hshaped
  have htokens : Token.tokenize x =
      [opener] ++ (tokensOf body ++ (closer.toList ++ (tokensOf rest ++ ts))) := by
    rw [h.tokens]
    simp [Component.tokens]
  have htext : x = Token.textOf [opener] ++
      Token.textOf (tokensOf body ++ (closer.toList ++ (tokensOf rest ++ ts))) := by
    rw [← Token.textOf_append, ← htokens, Token.textOf_tokenize]
  have hinside := (Token.eq_tokenize_of_append htokens htext).symm
  refine ⟨Token.textOf (tokensOf body ++ (closer.toList ++ (tokensOf rest ++ ts))), ?_, hopener, ?_⟩
  · rw [Token.textOf_cons, hopener] at htext
    exact htext
  rcases hcases with ⟨t, rfl, ht, hbody⟩ | ⟨rfl, rfl, rfl, hbody⟩
  · have hcloser : t.text = ['\x7d'] := by
      have hshaped := h.shaped t (by simp [Component.tokens])
      rwa [Token.Shaped, ht] at hshaped
    refine ⟨⟨hinside, hbody.grouped, fun _ => hbody, ?_⟩, .inl ⟨t, rfl, hcloser⟩⟩
    intro u hu
    rw [Option.toList_some, List.singleton_append, List.head?_cons, Option.mem_some] at hu
    rw [← hu, ht]
  · exact ⟨⟨hinside, hbody, by simp, by simp⟩, .inr ⟨rfl, rfl, rfl⟩⟩

/-- A token that neither opens nor closes a block is a component value of its own. -/
theorem token {cs : List Component} (h : Cut nested x cs ts) {t : Token} {y : List Char}
    (htokens : Token.tokenize x = t :: Token.tokenize y) (hopening : ∀ b, t.kind ≠ .opening b)
    (hclosing : t.kind ≠ .closing .curly) :
    ∃ rest, cs = .token t :: rest ∧ Cut nested y rest ts := by
  have hall := h.tokens
  rw [htokens] at hall
  cases cs with
  | nil =>
      rw [tokensOf_nil, List.nil_append] at hall
      have hstop := h.stop t (by rw [← hall]; simp)
      exact absurd hstop hclosing
  | cons c rest =>
      cases c with
      | block b opener body closer =>
          have hkind := kind_opener h.grouped.head
          rw [tokensOf_cons, Component.tokens, List.cons_append, List.cons_append, List.cons_append,
            List.cons.injEq] at hall
          exact absurd hkind (by rw [← hall.1]; exact hopening b)
      | token u =>
          rw [tokensOf_cons, Component.tokens, List.singleton_append, List.cons_append,
            List.cons.injEq] at hall
          obtain ⟨rfl, hrest⟩ := hall
          obtain ⟨z, hz, hcut⟩ := @append _ _ _ [.token t] rest h
          refine ⟨rest, rfl, hrest, hcut.grouped, hcut.closed, h.stop⟩

/-- Blanks are a component value of their own. -/
theorem blanks {cs : List Component} {b y : List Char} (h : Cut nested (b ++ y) cs ts)
    (hb : ∀ c ∈ b, Token.isBlank c = true) (hy : Text.headIs Token.isBlank y = false) :
    ∃ rest, cs = Component.blanks b ++ rest ∧ Cut nested y rest ts := by
  by_cases hnil : b = []
  · subst hnil
    exact ⟨cs, by simp [Component.blanks], h⟩
  · obtain ⟨rest, hcs, hcut⟩ := h.token (Token.tokenize_blanks hnil hb hy) (by simp) (by simp)
    refine ⟨rest, ?_, hcut⟩
    rw [hcs, Component.blanks, if_neg hnil]
    rfl

/-- In a block nothing comes before its closing bracket but what belongs to it. -/
theorem eq_nil {cs : List Component} {y : List Char} (h : Cut true ('\x7d' :: y) cs ts) :
    cs = [] := by
  have hall := h.tokens
  rw [Token.tokenize_closeCurly] at hall
  cases cs with
  | nil => rfl
  | cons c rest =>
      exfalso
      have hhead := h.grouped.head
      cases c with
      | block b opener body closer =>
          have hkind := kind_opener hhead
          rw [tokensOf_cons, Component.tokens, List.cons_append, List.cons_append, List.cons_append,
            List.cons.injEq] at hall
          rw [← hall.1] at hkind
          cases hkind
      | token u =>
          rw [tokensOf_cons, Component.tokens, List.singleton_append, List.cons_append,
            List.cons.injEq] at hall
          rw [Closed, CutOff, ← hall.1] at hhead
          rcases hhead with hclosed | hcut
          · exact hclosed rfl
          · exact hcut

/-- A rule or declaration does not start with a blank. -/
theorem head_visible {c : Component} {inner rest : List Component}
    (h : Cut nested x (c :: inner ++ rest) ts) (hc : startsItem c = true) :
    ∃ d u, textOf (c :: inner) = d :: u ∧ Token.isBlank d = false := by
  obtain ⟨t, us, ht, hkind⟩ := exists_first h.grouped.head (.inl hc)
  have htokens := h.tokens
  rw [tokensOf_append, tokensOf_cons, ht, List.cons_append, List.cons_append,
    List.cons_append] at htokens
  have htext : textOf (c :: inner) = t.text ++ Token.textOf (us ++ tokensOf inner) := by
    rw [← textOf_tokensOf, tokensOf_cons, ht, List.cons_append, Token.textOf_cons]
  have hne : t.text ≠ [] := by
    have hmem : t ∈ Token.tokenizeFrom 0 x := by
      rw [← Token.tokenize, htokens]
      exact List.mem_cons_self
    exact Token.text_ne_nil_of_mem_tokenizeFrom hmem
  cases hd : t.text with
  | nil => exact absurd hd hne
  | cons d u =>
      refine ⟨d, u ++ Token.textOf (us ++ tokensOf inner), by rw [htext, hd, List.cons_append], ?_⟩
      have hx := h.text_eq
      rw [textOf_append, htext, hd, List.cons_append, List.cons_append, List.cons_append] at hx
      rw [hx] at htokens
      exact Token.isBlank_eq_false_of_kind htokens hkind

theorem isInner_of_closed {c : Component} (h : Closed (around nested) c)
    (hc : isInner false c = true) : isInner nested c = true := by
  cases c with
  | block b opener body closer =>
      cases b with
      | curly => exact hc
      | paren => rfl
      | square => rfl
  | token t =>
      cases nested with
      | false => exact hc
      | true =>
          rw [Closed] at h
          cases hk : t.kind with
          | closing b =>
              rw [hk] at h
              cases b with
              | curly => exact absurd rfl h
              | paren => simp [isInner, hk]
              | square => simp [isInner, hk]
          | _ => simp_all [isInner]

/-- A head that stands in a text before a semicolon or bracket is legible by itself. -/
theorem isHead {start stop : Component → Bool} {c last : Component} {inner rest : List Component}
    {e : Char} {y : List Char} (h : Cut nested x (c :: inner ++ rest) ts) (hrest : rest ≠ [])
    (hx : x = textOf (c :: inner) ++ e :: y) (he : Token.isEdge e = true) (hstart : start c = true)
    (hinner : ∀ d ∈ c :: inner, isInner false d = true)
    (hlast : ∀ current, groupFrom (Token.tokenize [e]) current [] = (last :: current).reverse)
    (hstop : stop last = true) :
    isHead nested start stop (textOf (c :: inner) ++ [e]) = true := by
  have hclosed := h.allClosed hrest
  have htokens := h.tokens
  rw [tokensOf_append, List.append_assoc, hx] at htokens
  have hend : Token.EdgeRest [e] := .cons he
  have hedge := Token.tokenize_append_of_edge he htokens (textOf_tokensOf _) hend
  have houtside : AllClosed (innermost []) (c :: inner) := by
    rw [allClosed_iff] at hclosed ⊢
    exact fun d hd => (hclosed d hd).outside
  rw [Component.isHead, hedge, group, groupFrom_tokensOf _ houtside, hlast, areHead_iff]
  refine ⟨c, inner, last, by simp, hstart, hstop, ?_⟩
  intro d hd
  exact isInner_of_closed (allClosed_iff.1 hclosed d hd) (hinner d hd)

end Cut

end Stylesheet.Component
