import Stylesheet.Component

/-!
# Grouping and ungrouping

`Component.group` nests tokens, and `tokensOf` takes the nesting off again.  Ungrouping what was
grouped gives the tokens back (`tokensOf_group`).  The other direction needs a condition, since a
tree of component values can be built in ways that no grouping produces.

A component value is *closed* in a block when it is what grouping makes of its own tokens there:
its blocks have their closing brackets, and none of its stray closing brackets would close the block
around it.  `groupFrom_tokensOf` says that grouping reads closed component values off their tokens,
in the middle of anything else.  `group_grouped` says that everything in the result of grouping is
closed, except that the last component value of a block may be cut off by the end of the text.
-/

namespace Stylesheet.Component

/-! ## Ungrouping -/

mutual

/-- The tokens of a component value. -/
def tokens : Component → List Token
  | .token t => [t]
  | .block _ opener body closer => opener :: tokensOf body ++ closer.toList

/-- The tokens of a sequence of component values. -/
def tokensOf : List Component → List Token
  | [] => []
  | c :: cs => tokens c ++ tokensOf cs

end

@[simp] theorem tokensOf_nil : tokensOf [] = [] := by rw [tokensOf]

@[simp] theorem tokensOf_cons (c : Component) (cs : List Component) :
    tokensOf (c :: cs) = tokens c ++ tokensOf cs := by rw [tokensOf]

@[simp] theorem tokensOf_append (a b : List Component) :
    tokensOf (a ++ b) = tokensOf a ++ tokensOf b := by
  induction a with
  | nil => simp
  | cons c cs ih => simp [ih]

mutual

theorem textOf_tokens : (c : Component) → Token.textOf (tokens c) = text c
  | .token t => by simp [tokens, text]
  | .block _ opener body closer => by
      rw [tokens, text, List.cons_append, Token.textOf_cons, Token.textOf_append, textOf_tokensOf body]
      cases closer with
      | none => simp
      | some t => simp

/-- Ungrouping keeps the text. -/
theorem textOf_tokensOf : (cs : List Component) → Token.textOf (tokensOf cs) = textOf cs
  | [] => by simp [textOf]
  | c :: cs => by
      rw [tokensOf, textOf, Token.textOf_append, textOf_tokens c, textOf_tokensOf cs]

end

theorem textOf_singleton (c : Component) : textOf [c] = text c := by
  rw [textOf, textOf, List.append_nil]

/-- The tokens of the open blocks and of what came before them. -/
def openTokens : List Frame → List Token
  | [] => []
  | f :: frames => openTokens frames ++ tokensOf f.before.reverse ++ [f.opener]

theorem tokensOf_closeAll (current : List Component) (frames : List Frame) :
    tokensOf (closeAll current frames) = openTokens frames ++ tokensOf current.reverse := by
  induction frames generalizing current with
  | nil => simp [closeAll, openTokens]
  | cons f frames ih => simp [closeAll, openTokens, ih, tokens]

theorem tokensOf_groupFrom (ts : List Token) (current : List Component) (frames : List Frame) :
    tokensOf (groupFrom ts current frames) =
      openTokens frames ++ tokensOf current.reverse ++ ts := by
  induction ts generalizing current frames with
  | nil => simp [groupFrom, tokensOf_closeAll]
  | cons t ts ih =>
      rw [groupFrom]
      split
      · simp [ih, openTokens]
      · split
        · simp [ih, openTokens, tokens]
        · split <;> simp [ih, openTokens, tokens]
      · simp [ih, tokens]

/-- Ungrouping what was grouped gives the tokens back. -/
theorem tokensOf_group (ts : List Token) : tokensOf (group ts) = ts := by
  simp [group, tokensOf_groupFrom, openTokens]

/-! ## Closed component values -/

/-- Is a token of this kind what grouping leaves alone inside a block of this kind, or outside all
blocks? -/
def staysToken (around : Option Bracket) : Token.Kind → Prop
  | .opening _ => False
  | .closing b => around ≠ some b
  | _ => True

mutual

/-- Does grouping make this component value of its own tokens, inside a block of some kind or
outside all blocks? -/
def Closed (around : Option Bracket) : Component → Prop
  | .token t => staysToken around t.kind
  | .block b opener body closer =>
      opener.kind = .opening b ∧ (∃ t, closer = some t ∧ t.kind = .closing b) ∧
        AllClosed (some b) body

/-- Are all of some component values closed? -/
def AllClosed (around : Option Bracket) : List Component → Prop
  | [] => True
  | c :: cs => Closed around c ∧ AllClosed around cs

end

theorem allClosed_iff {around : Option Bracket} {cs : List Component} :
    AllClosed around cs ↔ ∀ c ∈ cs, Closed around c := by
  induction cs with
  | nil => simp [AllClosed]
  | cons c cs ih => simp [AllClosed, ih]

theorem AllClosed.append {around : Option Bracket} {a b : List Component}
    (ha : AllClosed around a) (hb : AllClosed around b) : AllClosed around (a ++ b) := by
  rw [allClosed_iff] at ha hb ⊢
  intro c hc
  rcases List.mem_append.1 hc with h | h
  · exact ha c h
  · exact hb c h

/-- What is closed inside a block is closed outside all blocks. -/
theorem Closed.outside {around : Option Bracket} {c : Component} (h : Closed around c) :
    Closed none c := by
  cases c with
  | token t =>
      rw [Closed] at h ⊢
      cases hk : t.kind <;> simp_all [staysToken]
  | block b opener body closer =>
      rw [Closed] at h ⊢
      exact h

/-- The kind of the innermost open block. -/
def innermost (frames : List Frame) : Option Bracket := frames.head?.map Frame.bracket

theorem groupFrom_token {t : Token} {frames : List Frame} (h : staysToken (innermost frames) t.kind)
    (ts : List Token) (current : List Component) :
    groupFrom (t :: ts) current frames = groupFrom ts (.token t :: current) frames := by
  rw [groupFrom]
  split
  · next b hk => rw [hk] at h; exact h.elim
  · next b hk =>
      rw [hk] at h
      split
      · rfl
      · next f outer =>
          rw [if_neg]
          intro hb
          exact h (by rw [innermost, List.head?_cons, Option.map_some, hb])
  · rfl

mutual

theorem groupFrom_tokens : (c : Component) → {frames : List Frame} →
    Closed (innermost frames) c → (ts : List Token) → (current : List Component) →
    groupFrom (tokens c ++ ts) current frames = groupFrom ts (c :: current) frames
  | .token t, frames, h, ts, current => by
      rw [Closed] at h
      rw [tokens, List.singleton_append, groupFrom_token h]
  | .block b opener body closer, frames, h, ts, current => by
      rw [Closed] at h
      obtain ⟨hopen, ⟨t, rfl, hclose⟩, hbody⟩ := h
      have hinner : innermost (⟨b, opener, current⟩ :: frames) = some b := rfl
      rw [tokens, Option.toList_some, List.cons_append, List.cons_append, List.append_assoc, groupFrom]
      simp only [hopen]
      rw [groupFrom_tokensOf body (hinner.symm ▸ hbody), List.singleton_append, groupFrom]
      simp [hclose]

/-- Grouping reads closed component values off their tokens. -/
theorem groupFrom_tokensOf : (cs : List Component) → {frames : List Frame} →
    AllClosed (innermost frames) cs → (ts : List Token) → (current : List Component) →
    groupFrom (tokensOf cs ++ ts) current frames = groupFrom ts (cs.reverse ++ current) frames
  | [], _, _, ts, current => by simp
  | c :: cs, frames, h, ts, current => by
      rw [AllClosed] at h
      rw [tokensOf, List.append_assoc, groupFrom_tokens c h.1, groupFrom_tokensOf cs h.2]
      simp

end

/-- Closed component values are the groups of their tokens. -/
theorem group_tokensOf {cs : List Component} (h : AllClosed none cs) : group (tokensOf cs) = cs := by
  have hgroup := @groupFrom_tokensOf cs [] h [] []
  rw [List.append_nil, List.append_nil] at hgroup
  rw [group, hgroup, groupFrom, closeAll, List.reverse_reverse]

/-! ## What grouping produces -/

mutual

/-- Is a component value a block that the end of the text cut off? -/
def CutOff : Component → Prop
  | .token _ => False
  | .block b opener body closer => opener.kind = .opening b ∧ closer = none ∧ Grouped (some b) body

/-- Are all of some component values closed, except perhaps for a last one that is cut off? -/
def Grouped (around : Option Bracket) : List Component → Prop
  | [] => True
  | c :: cs => (Closed around c ∧ Grouped around cs) ∨ (CutOff c ∧ cs = [])

end

theorem Grouped.head {around : Option Bracket} {c : Component} {cs : List Component}
    (h : Grouped around (c :: cs)) : Closed around c ∨ CutOff c := by
  rw [Grouped] at h
  exact h.imp And.left And.left

theorem kind_opener {around : Option Bracket} {b : Bracket} {opener : Token} {body : List Component}
    {closer : Option Token}
    (h : Closed around (.block b opener body closer) ∨ CutOff (.block b opener body closer)) :
    opener.kind = .opening b := by
  rw [Closed, CutOff] at h
  rcases h with h | h
  · exact h.1
  · exact h.1

theorem grouped_append {around : Option Bracket} {a b : List Component}
    (ha : AllClosed around a) (hb : Grouped around b) : Grouped around (a ++ b) := by
  induction a with
  | nil => exact hb
  | cons c cs ih =>
      rw [AllClosed] at ha
      rw [List.cons_append, Grouped]
      exact .inl ⟨ha.1, ih ha.2⟩

theorem AllClosed.grouped {around : Option Bracket} {cs : List Component} (h : AllClosed around cs) :
    Grouped around cs := by
  have hall := grouped_append h (b := []) (by simp [Grouped])
  rwa [List.append_nil] at hall

theorem grouped_body {around : Option Bracket} {b : Bracket} {opener : Token} {body : List Component}
    {closer : Option Token}
    (h : Closed around (.block b opener body closer) ∨ CutOff (.block b opener body closer)) :
    Grouped (some b) body := by
  rw [Closed, CutOff] at h
  rcases h with h | h
  · exact h.2.2.grouped
  · exact h.2.2

/-- In the result of grouping, everything before another component value is closed. -/
theorem Grouped.closed_of_append {around : Option Bracket} {a b : List Component}
    (h : Grouped around (a ++ b)) (hb : b ≠ []) : AllClosed around a ∧ Grouped around b := by
  induction a with
  | nil => exact ⟨by simp [AllClosed], h⟩
  | cons c cs ih =>
      rw [List.cons_append, Grouped] at h
      rcases h with ⟨hc, hcs⟩ | ⟨_, hnil⟩
      · rw [AllClosed]
        exact ⟨⟨hc, (ih hcs).1⟩, (ih hcs).2⟩
      · exact absurd (List.append_eq_nil_iff.1 hnil).2 hb

theorem Grouped.left {around : Option Bracket} {a b : List Component}
    (h : Grouped around (a ++ b)) : Grouped around a := by
  cases b with
  | nil => rwa [List.append_nil] at h
  | cons c cs => exact (h.closed_of_append (by simp)).1.grouped

theorem Grouped.right {around : Option Bracket} {a b : List Component}
    (h : Grouped around (a ++ b)) : Grouped around b := by
  cases b with
  | nil => simp [Grouped]
  | cons c cs => exact (h.closed_of_append (by simp)).2

/-- The contents of the open blocks, as far as they are complete. -/
def FramesClosed : List Frame → Prop
  | [] => True
  | f :: frames =>
      f.opener.kind = .opening f.bracket ∧ AllClosed (innermost frames) f.before.reverse ∧
        FramesClosed frames

theorem closeAll_grouped {current : List Component} {frames : List Frame}
    (hcurrent : Grouped (innermost frames) current.reverse) (hframes : FramesClosed frames) :
    Grouped none (closeAll current frames) := by
  induction frames generalizing current with
  | nil => exact hcurrent
  | cons f frames ih =>
      obtain ⟨hopener, hbefore, hrest⟩ := hframes
      rw [closeAll]
      refine ih ?_ hrest
      rw [List.reverse_cons]
      refine grouped_append hbefore ?_
      rw [Grouped, CutOff]
      exact .inr ⟨⟨hopener, rfl, hcurrent⟩, rfl⟩

theorem groupFrom_grouped (ts : List Token) {current : List Component} {frames : List Frame}
    (hcurrent : AllClosed (innermost frames) current.reverse) (hframes : FramesClosed frames) :
    Grouped none (groupFrom ts current frames) := by
  induction ts generalizing current frames with
  | nil =>
      rw [groupFrom]
      exact closeAll_grouped hcurrent.grouped hframes
  | cons t ts ih =>
      have push : staysToken (innermost frames) t.kind →
          AllClosed (innermost frames) (Component.token t :: current).reverse := by
        intro hstays
        rw [List.reverse_cons]
        refine hcurrent.append ?_
        rw [AllClosed, AllClosed, Closed]
        exact ⟨hstays, trivial⟩
      cases hk : t.kind with
      | opening b =>
          rw [groupFrom]
          simp only [hk]
          exact ih (by simp [AllClosed]) ⟨hk, hcurrent, hframes⟩
      | closing b =>
          rw [groupFrom]
          simp only [hk]
          cases frames with
          | nil => exact ih (push (by rw [hk]; simp [staysToken, innermost])) hframes
          | cons f outer =>
              obtain ⟨hopener, hbefore, houter⟩ := hframes
              dsimp only
              split
              · next hb =>
                  refine ih ?_ houter
                  rw [List.reverse_cons]
                  refine hbefore.append ?_
                  rw [AllClosed, AllClosed, Closed]
                  rw [hb] at hopener
                  rw [innermost, List.head?_cons, Option.map_some, hb] at hcurrent
                  exact ⟨⟨hopener, ⟨t, rfl, hk⟩, hcurrent⟩, trivial⟩
              · next hb =>
                  refine ih (push ?_) ⟨hopener, hbefore, houter⟩
                  rw [hk]
                  simpa [staysToken, innermost] using hb
      | _ =>
          rw [groupFrom_token (by simp [hk, staysToken])]
          exact ih (push (by simp [hk, staysToken])) hframes

/-- Grouping closes all component values but a last one that the end of the text cuts off. -/
theorem group_grouped (ts : List Token) : Grouped none (group ts) :=
  groupFrom_grouped ts (by simp [innermost, AllClosed]) trivial

/-! ## Grouping a longer sequence of tokens -/

mutual

theorem groupFrom_cutOff : (c : Component) → CutOff c → (current : List Component) →
    (frames : List Frame) → groupFrom (tokens c) current frames = closeAll (c :: current) frames
  | .token t, h, current, frames => by
      rw [CutOff] at h
      exact h.elim
  | .block b opener body closer, h, current, frames => by
      rw [CutOff] at h
      obtain ⟨hopen, rfl, hbody⟩ := h
      rw [tokens, Option.toList_none, List.append_nil, groupFrom]
      simp only [hopen]
      rw [@groupFrom_tokensOf_grouped body (⟨b, opener, current⟩ :: frames) hbody, closeAll,
        List.append_nil, List.reverse_reverse]

/-- At the end of the tokens, grouping reads component values off them also when the last of them is cut
off. -/
theorem groupFrom_tokensOf_grouped : (cs : List Component) → {frames : List Frame} →
    Grouped (innermost frames) cs → (current : List Component) →
    groupFrom (tokensOf cs) current frames = closeAll (cs.reverse ++ current) frames
  | [], _, _, current => by rw [tokensOf, groupFrom, List.reverse_nil, List.nil_append]
  | c :: cs, frames, h, current => by
      rw [Grouped] at h
      rw [tokensOf, List.reverse_cons, List.append_assoc, List.singleton_append]
      rcases h with ⟨hc, hcs⟩ | ⟨hc, rfl⟩
      · rw [groupFrom_tokens c hc, groupFrom_tokensOf_grouped cs hcs]
      · rw [tokensOf, List.append_nil, groupFrom_cutOff c hc, List.reverse_nil, List.nil_append]

end

/-- What grouping produces are the groups of its tokens. -/
theorem group_tokensOf_grouped {cs : List Component} (h : Grouped none cs) :
    group (tokensOf cs) = cs := by
  rw [group, @groupFrom_tokensOf_grouped cs [] h, closeAll, List.append_nil, List.reverse_reverse]

/-- Where nothing is left open, the tokens behind are grouped by themselves. -/
theorem group_append {a b : List Token} (h : AllClosed none (group a)) :
    group (a ++ b) = group a ++ group b := by
  have hgroup := group_tokensOf_grouped (grouped_append h (group_grouped b))
  rwa [tokensOf_append, tokensOf_group, tokensOf_group] at hgroup

end Stylesheet.Component
