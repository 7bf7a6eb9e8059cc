import Stylesheet.Proofs.Cut
import Stylesheet.Proofs.ItemReading
import Stylesheet.Proofs.SettledReading
import Stylesheet.Proofs.Weight

/-!
# Printing what was read

The tree that was read from a text is read again from its own pretty text exactly when its heads are
legible.

One direction is the round trip of settled trees.  For the other, a tree is given that is read back
from its pretty text.  Its weight is then the mass of the text, so reading has dropped and decoded
nothing (`Tight`).  We go through the text and the tree in step, node by node: the component values
that give a node have exactly the text that was printed for it (`Reprinted.inStep`).  Each head is
located by counting: the colon, the brackets and the semicolons in the text of a node are as many on
both sides, so the mark that ends its head is the same character.  Hence each head stands between two
token boundaries as it was printed, and that is legibility.
-/

namespace Stylesheet.Text

/-! ## Locating a character by counting -/

/-- A text is cut at the same place twice if as many of the character come before both. -/
theorem append_cons_cancel {e : Char} {u v x y : List Char} (h : u ++ e :: x = v ++ e :: y)
    (hcount : u.countP (· == e) = v.countP (· == e)) : u = v ∧ x = y := by
  induction u generalizing v with
  | nil =>
      cases v with
      | nil =>
          rw [List.nil_append, List.nil_append, List.cons.injEq] at h
          exact ⟨rfl, h.2⟩
      | cons d v =>
          rw [List.nil_append, List.cons_append, List.cons.injEq] at h
          simp [h.1] at hcount
  | cons c u ih =>
      cases v with
      | nil =>
          rw [List.nil_append, List.cons_append, List.cons.injEq] at h
          simp [h.1] at hcount
      | cons d v =>
          rw [List.cons_append, List.cons_append, List.cons.injEq] at h
          obtain ⟨rfl, h⟩ := h
          rw [List.countP_cons, List.countP_cons] at hcount
          obtain ⟨rfl, hxy⟩ := ih h (by omega)
          exact ⟨rfl, hxy⟩

theorem countP_eq_zero_of_not_mem {e : Char} {cs : List Char} (h : e ∉ cs) :
    cs.countP (· == e) = 0 := by
  rw [List.countP_eq_zero]
  intro c hc
  rw [beq_iff_eq]
  rintro rfl
  exact h hc

/-- What may follow a text that ends at a semicolon, at a closing bracket, or at the end. -/
inductive Ending : List Char → Prop
  | nil : Ending []
  | bracket (cs : List Char) : Ending ('\x7d' :: cs)
  | semicolon (cs : List Char) : Ending (';' :: cs)

/-- If a text goes on at a semicolon, and as many semicolons and closing brackets come before as in
another one, then what ends the other one is this semicolon. -/
theorem Ending.eq_semicolon {q u r y : List Char} (hr : Ending r) (h : q ++ r = u ++ ';' :: y)
    (hsemicolon : q.countP (· == ';') = u.countP (· == ';'))
    (hbracket : q.countP (· == '\x7d') = u.countP (· == '\x7d')) : q = u ∧ r = ';' :: y := by
  cases hr with
  | semicolon cs =>
      obtain ⟨rfl, rfl⟩ := append_cons_cancel h hsemicolon
      exact ⟨rfl, rfl⟩
  | nil =>
      have hcount := congrArg (List.countP (· == ';')) h
      simp only [List.append_nil, List.countP_append, List.countP_cons] at hcount
      simp at hcount
      omega
  | bracket cs =>
      exfalso
      rcases List.append_eq_append_iff.1 h with ⟨m, hu, hm⟩ | ⟨m, hq, hm⟩
      · cases m with
        | nil => simp at hm
        | cons c m =>
            rw [List.cons_append, List.cons.injEq] at hm
            rw [hu, ← hm.1, List.countP_append, List.countP_cons] at hbracket
            simp at hbracket
      · cases m with
        | nil => simp at hm
        | cons c m =>
            rw [List.cons_append, List.cons.injEq] at hm
            rw [hq, ← hm.1, List.countP_append, List.countP_cons] at hsemicolon
            simp at hsemicolon

/-- A text that starts visibly stands right after the blanks before it when it is as long as it is
found to be without its spaces. -/
theorem append_trim_cancel {junk h b s w : List Char} (heq : junk ++ h = b ++ (s ++ w))
    (hlength : s.length = (trim h).length) (hs : s ≠ [])
    (hend : headIs isSpace s.reverse = false) (hw : Spaces w)
    (hb : ∀ c ∈ b, Token.isBlank c = true) (hvisible : headIs Token.isBlank h = false) :
    junk = b ∧ h = s ++ w := by
  obtain ⟨a, a', hh, ha, ha', htrim⟩ := exists_trim h
  have hne : trim h ≠ [] := by
    rw [← List.length_pos_iff] at hs ⊢
    omega
  have hleft : trimEnd (junk ++ h) = junk ++ a ++ trim h := by
    have hlast : headIs isSpace (junk ++ a ++ trim h).reverse = false := by
      rw [List.reverse_append, headIs_append_of_ne_nil (by simpa using hne)]
      exact htrim.2
    have hcut := trimEnd_append_spaces hlast ha'
    rw [List.append_assoc (junk ++ a), List.append_assoc junk, ← List.append_assoc a, ← hh] at hcut
    exact hcut
  have hright : trimEnd (b ++ (s ++ w)) = b ++ s := by
    have hlast : headIs isSpace (b ++ s).reverse = false := by
      rw [List.reverse_append, headIs_append_of_ne_nil (by simpa using hs)]
      exact hend
    have hcut := trimEnd_append_spaces hlast hw
    rwa [List.append_assoc] at hcut
  have hboth : junk ++ a ++ trim h = b ++ s := by rw [← hleft, heq, hright]
  obtain ⟨hjunk, hs'⟩ := List.append_inj' hboth hlength.symm
  have hnil : a = [] := by
    cases a with
    | nil => rfl
    | cons c a =>
        have hblank := hb c (by rw [← hjunk]; simp)
        rw [hh] at hvisible
        exact absurd hblank (by simpa [headIs] using hvisible)
  rw [hnil, List.append_nil] at hjunk
  refine ⟨hjunk, ?_⟩
  rw [hjunk] at heq
  exact List.append_cancel_left heq

end Stylesheet.Text

namespace Stylesheet.Node

open Stylesheet.Text (mass trim lower Spaces Lasting isSpace headIs)
open Component (Cut Grouped isInner startsItem isKeyword textOf tokensOf)

/-! ## Nothing is lost -/

/-- Has everything with mass become part of the nodes? -/
def Tight (cs : List Component) : Prop :=
  mass (textOf cs) ≤ weightOf (readFrom (.between []) cs)

variable {nested : Bool} {x : List Char} {ts : List Token}

/-- Nothing is lost in an item, and nothing after it. -/
theorem Item.tight {item rest : List Component} {ns : List Node} (h : Item rest item ns)
    (hcut : Cut nested x (item ++ rest) ts) (ht : Tight (item ++ rest)) :
    mass (textOf item) ≤ weightOf ns ∧ Tight rest := by
  have hitem := weight_readFrom item _ hcut.grouped.left
    (fun t hmem => hcut.shaped t (by simp [hmem])) (.between [])
  have hrest := weight_readFrom rest _ hcut.grouped.right
    (fun t hmem => hcut.shaped t (by simp [hmem])) (.between [])
  rw [Tight, h.readFrom_append, weightOf_append, Component.textOf_append, Text.mass_append] at ht
  rw [h.readFrom_eq, Pending.weight, Text.mass_nil] at hitem
  rw [Pending.weight, Text.mass_nil] at hrest
  rw [Tight]
  omega

/-- An item gives one node at most. -/
theorem Item.eq_singleton {item rest : List Component} {n : Node} {ns : List Node}
    (h : Item rest item (n :: ns)) : ns = [] := by
  generalize hall : n :: ns = all at h
  cases h with
  | plain hstart hinner hstop =>
      rw [Pending.finish] at hall
      cases hd : Declaration.ofText? _ with
      | none =>
          rw [hd] at hall
          cases hall
      | some d =>
          rw [hd] at hall
          cases hall
          rfl
  | skipped hkind => cases hall
  | comment hkind =>
      cases hall
      rfl
  | rule hstart hinner =>
      cases hall
      rfl
  | statement hkind hinner hstop =>
      cases hall
      rfl
  | atRule hkind hinner =>
      cases hall
      rfl

/-- A block with nothing before it loses its bracket. -/
theorem not_tight_block {opener : Token} {body cs : List Component} {closer : Option Token}
    (hcut : Cut nested x (.block .curly opener body closer :: cs) ts) :
    ¬Tight (.block .curly opener body closer :: cs) := by
  obtain ⟨-, -, hopener, -, -⟩ := hcut.block
  have hgrouped : Grouped (Component.around nested) cs :=
    Grouped.right (a := [.block .curly opener body closer]) hcut.grouped
  have hrest := weight_readFrom cs _ hgrouped (fun t hmem => hcut.shaped t (by simp [hmem]))
    (.between (textOf body ++ closer.elim [] Token.text))
  have hopen : mass ['\x7b'] = 1 := rfl
  rw [Tight, readFrom, readStep, textOf, Component.text, Text.mass_append, List.append_assoc,
    Text.mass_append opener.text, hopener, hopen]
  rw [Pending.weight] at hrest
  dsimp only [List.nil_append]
  omega

/-- The first node comes from an item, with nothing of mass before it. -/
theorem exists_node {x : List Char} (cs : List Component) {n : Node} {ns : List Node}
    (hcut : Cut nested x cs ts) (ht : Tight cs)
    (hread : readFrom (.between []) cs = n :: ns) :
    ∃ junk item rest, cs = junk ++ (item ++ rest) ∧ mass (textOf junk) = 0 ∧ Item rest item [n] ∧
      readFrom (.between []) rest = ns ∧ mass (textOf item) ≤ weight n ∧ Tight rest := by
  cases cs with
  | nil => cases hread
  | cons c cs =>
      rcases exists_item c cs with ⟨opener, body, closer, rfl⟩ | ⟨item, rest, ms, hcs, hne, hitem⟩
      · exact absurd ht (not_tight_block hcut)
      · have hlength : rest.length < (c :: cs).length := by
          have hpos := List.length_pos_iff.2 hne
          rw [hcs, List.length_append]
          omega
        rw [hcs] at hcut ht hread
        obtain ⟨hmass, hrest⟩ := hitem.tight hcut ht
        rw [hitem.readFrom_append] at hread
        cases ms with
        | nil =>
            -- The item gives nothing: it is part of what stands before the node.
            obtain ⟨y, -, hcut'⟩ := hcut.append
            obtain ⟨junk, item', rest', hrest', hjunk, hfirst⟩ := exists_node rest hcut' hrest hread
            refine ⟨item ++ junk, item', rest', ?_, ?_, hfirst⟩
            · rw [hcs, hrest', List.append_assoc]
            · rw [weightOf] at hmass
              rw [Component.textOf_append, Text.mass_append]
              omega
        | cons m ms =>
            cases hitem.eq_singleton
            rw [List.singleton_append, List.cons.injEq] at hread
            obtain ⟨rfl, hread⟩ := hread
            rw [weightOf_singleton] at hmass
            exact ⟨[], item, rest, hcs, rfl, hitem, hread, hmass, hrest⟩
termination_by cs.length

/-! ## Text and tree in step -/

/-- A text goes on with the pretty text of what is read from some component values at its start, and
nothing is lost in them.  After that text their block ends, or the whole text does. -/
structure Reprinted (nested : Bool) (depth : Nat) (x : List Char) (cs : List Component)
    (ts : List Token) (b z : List Char) : Prop where
  /-- The component values stand at the start of the text. -/
  cut : Cut nested x cs ts
  /-- Nothing is lost in them. -/
  tight : Tight cs
  /-- There are only blanks before the nodes. -/
  before : ∀ c ∈ b, Token.isBlank c = true
  /-- There are only blanks after the nodes. -/
  after : ∀ c ∈ z, Token.isBlank c = true
  /-- The nodes stand in the text as they are printed. -/
  text : ∃ tail, x = b ++ renderList .pretty depth (readFrom (.between []) cs) ++ (z ++ tail) ∧
    if nested then headIs (· == '\x7d') tail = true else ts = [] ∧ tail = []

/-- The component values are those of the text that was printed, and the heads in it are legible. -/
def InStep (nested : Bool) (depth : Nat) (cs : List Component) (b z : List Char) : Prop :=
  legibleAll .pretty nested (readFrom (.between []) cs) = true ∧
    textOf cs = b ++ renderList .pretty depth (readFrom (.between []) cs) ++ z

theorem insideText_eq (depth : Nat) (children : List Node) : ∃ b z : List Char,
    (∀ c ∈ b, Token.isBlank c = true) ∧ (∀ c ∈ z, Token.isBlank c = true) ∧
      insideText .pretty depth children = b ++ renderList .pretty (depth + 1) children ++ z := by
  rw [insideText]
  split
  · next hnil =>
      rw [List.isEmpty_iff.1 hnil, renderList]
      exact ⟨[], [], by simp, by simp, rfl⟩
  · refine ⟨['\n'], '\n' :: List.replicate depth '\t', by simp [Token.isBlank, Token.isNewline], ?_,
      rfl⟩
    intro c hc
    rcases List.mem_cons.1 hc with rfl | hc
    · rfl
    · rw [List.eq_of_mem_replicate hc]
      rfl

/-- The contents of a block are in step when the block stands in the text as it is printed, and the
block has its bracket. -/
theorem block_inStep {depth : Nat} {opener : Token} {body rest : List Component}
    {closer : Option Token} {y tail : List Char}
    (ih : ∀ {us : List Token} {b z : List Char},
      Reprinted true (depth + 1) y body us b z → InStep true (depth + 1) body b z)
    (hcut : Cut nested ('\x7b' :: y) (.block .curly opener body closer :: rest) ts)
    (htight : Tight body)
    (hy : y = insideText .pretty depth (readFrom (.between []) body) ++ '\x7d' :: tail) :
    legibleAll .pretty true (readFrom (.between []) body) = true ∧
      Component.text (.block .curly opener body closer) =
        '\x7b' :: insideText .pretty depth (readFrom (.between []) body) ++ ['\x7d'] := by
  obtain ⟨y', hyy, hopener, hinside, hcloser⟩ := hcut.block
  obtain rfl : y = y' := (List.cons.inj hyy).2
  obtain ⟨b, z, hb, hz, htext⟩ := insideText_eq depth (readFrom (.between []) body)
  obtain ⟨hlegible, hbody⟩ := ih ⟨hinside, htight, hb, hz, '\x7d' :: tail, by
    rw [hy, htext, List.append_assoc _ z], rfl⟩
  rw [← htext] at hbody
  refine ⟨hlegible, ?_⟩
  have hrest := hinside.text_eq
  rw [hbody, hy] at hrest
  have hclose := List.append_cancel_left hrest
  rcases hcloser with ⟨t, rfl, ht⟩ | ⟨rfl, rfl, rfl⟩
  · rw [Component.text, hopener, hbody, Option.elim_some, ht]
    rfl
  · exact absurd hclose (by simp)

theorem countP_light {e : Char} {junk : List Char} (hjunk : mass junk = 0)
    (he : Text.isLight e = false) : junk.countP (· == e) = 0 :=
  Text.countP_eq_zero_of_not_mem (Text.not_mem_of_mass_eq_zero hjunk he)

theorem lasting_openCurly : Lasting (· == '\x7b') := .of_eq rfl rfl

theorem renderAt_rule (depth : Nat) (selector : String) (children : List Node) :
    renderAt .pretty depth (.rule selector children) =
      selector.toList ++ [' '] ++ ('\x7b' :: insideText .pretty depth children ++ ['\x7d']) := by
  rw [renderAt, blockText_eq, headText, gapBeforeBlock]

/-- The selector of a rule, which starts visibly, stands where it was printed. -/
theorem selector_aligned {junk head b y tail : List Char}
    (h : junk ++ (head ++ '\x7b' :: y) = b ++ (trim head ++ [' '] ++ '\x7b' :: tail))
    (hjunk : mass junk = 0) (hb : ∀ c ∈ b, Token.isBlank c = true) {d : Char} {u : List Char}
    (hhead : head = d :: u) (hd : Token.isBlank d = false) :
    junk = b ∧ head = trim head ++ [' '] ∧ y = tail := by
  have hspace : Spaces [' '] := by simp [Spaces, isSpace]
  have hcount : (junk ++ head).countP (· == '\x7b') =
      (b ++ (trim head ++ [' '])).countP (· == '\x7b') := by
    rw [List.countP_append, List.countP_append, List.countP_append, countP_light hjunk rfl,
      countP_light (mass_blanks hb) rfl, lasting_openCurly.countP_trim,
      lasting_openCurly.countP_spaces hspace, Nat.add_zero]
  rw [← List.append_assoc, ← List.append_assoc] at h
  obtain ⟨heq, hy⟩ := Text.append_cons_cancel h hcount
  have hvisible : headIs Token.isBlank head = false := by
    rw [hhead]
    exact hd
  by_cases hnil : trim head = []
  · -- A head of spaces only would stand in the blanks before it.
    have hmem : d ∈ b ++ [' '] := by
      rw [hnil, List.nil_append] at heq
      rw [← heq, hhead]
      simp
    rcases List.mem_append.1 hmem with hmem | hmem
    · exact absurd (hb d hmem) (by simp [hd])
    · rw [List.mem_singleton.1 hmem] at hd
      cases hd
  · obtain ⟨hjunk', hhead'⟩ := Text.append_trim_cancel heq rfl hnil (Text.trimmed_trim head).2 hspace
      hb hvisible
    exact ⟨hjunk', hhead', hy⟩

theorem groupFrom_openCurly (current : List Component) :
    Component.groupFrom (Token.tokenize ['\x7b']) current [] =
      (.block .curly Token.openCurly [] none :: current).reverse := by
  rw [Token.tokenize_openCurly, Token.tokenize_nil, Component.groupFrom.eq_def]
  rfl

/-- Some component values have the text of a node after some blanks, and the node is legible. -/
def Aligned (nested : Bool) (depth : Nat) (front : List Component) (b : List Char) (n : Node) :
    Prop :=
  textOf front = b ++ renderAt .pretty depth n ∧ legible .pretty nested n = true

/-- A block has at least the mass of its opening bracket and its contents. -/
theorem mass_block_le {opener : Token} {body : List Component} {closer : Option Token}
    (hopener : opener.text = ['\x7b']) :
    1 + mass (textOf body) ≤ mass (Component.text (.block .curly opener body closer)) := by
  have hopen : mass ['\x7b'] = 1 := rfl
  rw [Component.text, hopener, Text.mass_append, Text.mass_append, hopen]
  omega

theorem aligned_rule {depth : Nat} {junk inner body rest : List Component} {c : Component}
    {opener : Token} {closer : Option Token} {b tail : List Char} {n : Node}
    (ih : ∀ {y : List Char} {us : List Token} {b z : List Char}, y.length < x.length →
      Reprinted true (depth + 1) y body us b z → InStep true (depth + 1) body b z)
    (hcut : Cut nested x (junk ++ (c :: inner ++ [.block .curly opener body closer] ++ rest)) ts)
    (hstart : startsItem c = true) (hinner : ∀ d ∈ c :: inner, isInner false d = true)
    (hjunk : mass (textOf junk) = 0) (hb : ∀ c ∈ b, Token.isBlank c = true)
    (hn : n = .rule (.ofList (trim (textOf (c :: inner)))) (readFrom (.between []) body))
    (hmass : mass (textOf (c :: inner ++ [.block .curly opener body closer])) ≤ weight n)
    (hx : x = b ++ (renderAt .pretty depth n ++ tail)) :
    Aligned nested depth (junk ++ (c :: inner ++ [.block .curly opener body closer])) b n := by
  rw [List.append_assoc (c :: inner), List.singleton_append] at hcut
  obtain ⟨x₁, hx₁, hcut₁⟩ := hcut.append
  obtain ⟨x₂, hx₂, hcut₂⟩ := hcut₁.append
  obtain ⟨y, hy, hopener, -, -⟩ := hcut₂.block
  obtain ⟨d, u, hd, hdblank⟩ := hcut₁.head_visible hstart
  rw [hy] at hx₂ hcut₂
  subst hn
  rw [renderAt_rule, String.toList_ofList] at hx
  have htext : textOf junk ++ (textOf (c :: inner) ++ '\x7b' :: y) =
      b ++ (trim (textOf (c :: inner)) ++ [' '] ++
        '\x7b' :: (insideText .pretty depth (readFrom (.between []) body) ++ '\x7d' :: tail)) := by
    rw [← hx₂, ← hx₁, hx]
    simp
  obtain ⟨hfront, hhead, hinside⟩ := selector_aligned htext hjunk hb hd hdblank
  have htight : Tight body := by
    have hblock := @mass_block_le opener body closer hopener
    rw [Component.textOf_append, Text.mass_append, Component.textOf_singleton, weight,
      String.toList_ofList, Text.mass_trim] at hmass
    rw [Tight]
    omega
  have hlength : y.length < x.length := by
    rw [hx₁, hx₂]
    simp
    omega
  obtain ⟨hlegible, hblock⟩ := block_inStep (ih hlength) hcut₂ htight hinside
  refine ⟨?_, ?_⟩
  · rw [Component.textOf_append, Component.textOf_append, Component.textOf_singleton, hfront, hblock,
      renderAt_rule, String.toList_ofList, ← hhead]
  · have hstop : Component.isOpenCurly (.block .curly Token.openCurly [] none) = true := rfl
    have hfirst := hcut₁.isHead (by simp) hx₂ rfl hstart hinner groupFrom_openCurly hstop
    rw [legible, hlegible, opensBlock, headText, gapBeforeBlock, String.toList_ofList, ← hhead, hfirst]
    rfl

/-! ### At-rules -/

/-- An at-keyword that keeps its mass stands where it was printed, and is written without escapes. -/
theorem keyword_aligned {t : Token} {name junk b y r : List Char} (ht : t.Shaped)
    (hkind : t.kind = .atKeyword name) (hmass : mass t.text ≤ mass ('@' :: lower name))
    (h : junk ++ (t.text ++ y) = b ++ ('@' :: lower name ++ r)) (hjunk : mass junk = 0)
    (hb : ∀ c ∈ b, Token.isBlank c = true) :
    junk = b ∧ t.text = '@' :: lower name ∧ isKeyword (.ofList (lower name)) (.token t) = true ∧
      y = r := by
  obtain ⟨kind, text⟩ := t
  dsimp only at hkind hmass h
  subst hkind
  obtain ⟨raw, rfl, rfl⟩ : ∃ raw, text = '@' :: raw ∧ name = Token.nameValue raw := ht
  rw [Text.mass_cons '@' raw, Text.mass_cons '@' (lower _), Text.mass_lower] at hmass
  have hraw : mass raw ≤ mass (Token.nameValue raw) := by omega
  have hcount : junk.countP (· == '@') = b.countP (· == '@') := by
    rw [countP_light hjunk rfl, countP_light (mass_blanks hb) rfl]
  obtain ⟨hfront, hrest⟩ := Text.append_cons_cancel h hcount
  have hlength : raw.length = (lower (Token.nameValue raw)).length := by
    rw [lower, List.length_map, Token.nameValue_eq_map hraw, List.length_map]
  obtain ⟨hname, hy⟩ := List.append_inj hrest hlength
  have hself : Token.nameValue raw = raw := Token.nameValue_eq_self hraw hname.symm
  refine ⟨hfront, by rw [← hname], ?_, hy⟩
  rw [isKeyword, beq_iff_eq, String.toList_ofList, ← hname, hself]

theorem countP_paramsText {p : Char → Bool} (h : Lasting p) (params : List Char) :
    (paramsText (.ofList (trim params))).countP p = params.countP p := by
  have hspace : p ' ' = false := h.space ' ' rfl
  rw [paramsText]
  split
  · next hempty =>
      have hnil : trim params = [] := by
        have hlist := congrArg String.toList (String.isEmpty_iff.1 hempty)
        rwa [String.toList_ofList] at hlist
      rw [← h.countP_trim params, hnil]
  · rw [List.countP_cons, hspace, String.toList_ofList, h.countP_trim]
    simp

theorem renderAt_ofAtRule (depth : Nat) (name : String) (params : List Char)
    (children : List Node) :
    renderAt .pretty depth (ofAtRule name params children) =
      atHead name (.ofList (trim params)) ++ [' '] ++
        ('\x7b' :: insideText .pretty depth children ++ ['\x7d']) := by
  rw [ofAtRule.eq_def]
  dsimp only
  split
  · rw [renderAt, blockText_eq, headText, gapBeforeBlock]
    split
    · next hempty =>
        rw [String.isEmpty_iff.1 hempty]
        rfl
    · rfl
  · rw [renderAt, blockText_eq, headText, gapBeforeBlock]
  · rw [renderAt, blockText_eq, headText, gapBeforeBlock]

theorem legible_ofAtRule (nested : Bool) (name : String) (params : List Char)
    (children : List Node) :
    legible .pretty nested (ofAtRule name params children) =
      (opensBlock .pretty nested (isKeyword name) (atHead name (.ofList (trim params))) &&
        legibleAll .pretty true children) := by
  rw [ofAtRule.eq_def]
  dsimp only
  split
  · rw [legible]
    split
    · next hempty =>
        rw [String.isEmpty_iff.1 hempty]
        rfl
    · rfl
  · rw [legible]
  · rw [legible]

theorem aligned_atRule {depth : Nat} {junk inner body rest : List Component} {t opener : Token}
    {name : List Char} {closer : Option Token} {b tail : List Char} {n : Node}
    (ih : ∀ {y : List Char} {us : List Token} {b z : List Char}, y.length < x.length →
      Reprinted true (depth + 1) y body us b z → InStep true (depth + 1) body b z)
    (hcut : Cut nested x
      (junk ++ (.token t :: inner ++ [.block .curly opener body closer] ++ rest)) ts)
    (hkind : t.kind = .atKeyword name) (hinner : ∀ d ∈ inner, isInner false d = true)
    (hjunk : mass (textOf junk) = 0) (hb : ∀ c ∈ b, Token.isBlank c = true)
    (hn : n = ofAtRule (.ofList (lower name)) (textOf inner) (readFrom (.between []) body))
    (hmass : mass (textOf (.token t :: inner ++ [.block .curly opener body closer])) ≤ weight n)
    (hx : x = b ++ (renderAt .pretty depth n ++ tail)) :
    Aligned nested depth (junk ++ (.token t :: inner ++ [.block .curly opener body closer])) b n := by
  rw [List.append_assoc (.token t :: inner), List.singleton_append] at hcut
  obtain ⟨x₁, hx₁, hcut₁⟩ := hcut.append
  obtain ⟨x₂, hx₂, hcut₂⟩ := hcut₁.append
  obtain ⟨y, hy, hopener, hinside, -⟩ := hcut₂.block
  rw [hy] at hx₂ hcut₂
  have hshaped := hcut₁.shaped t (by simp [Component.tokens])
  have hkeyword : textOf (.token t :: inner) = t.text ++ textOf inner := by
    rw [textOf, Component.text]
  subst hn
  obtain ⟨hkept, htight⟩ : mass t.text ≤ mass ('@' :: lower name) ∧ Tight body := by
    have hblock := @mass_block_le opener body closer hopener
    have hbody := weight_readFrom body _ hinside.grouped hinside.shaped (.between [])
    have hname := hshaped.mass_lower_le hkind
    rw [Component.textOf_append, Text.mass_append, Component.textOf_singleton, hkeyword,
      Text.mass_append, weight_ofAtRule, String.toList_ofList] at hmass
    rw [Pending.weight, Text.mass_nil] at hbody
    rw [Tight]
    omega
  rw [renderAt_ofAtRule, atHead_eq, String.toList_ofList] at hx
  have hall : textOf junk ++ (t.text ++ (textOf inner ++ '\x7b' :: y)) =
      b ++ ('@' :: lower name ++ (paramsText (.ofList (trim (textOf inner))) ++ [' '] ++
        '\x7b' :: (insideText .pretty depth (readFrom (.between []) body) ++ '\x7d' :: tail))) := by
    rw [hkeyword, List.append_assoc] at hx₂
    rw [← hx₂, ← hx₁, hx]
    simp
  obtain ⟨hfront, htext, hstart, hparams⟩ := keyword_aligned hshaped hkind hkept hall hjunk hb
  have hcount : (textOf inner).countP (· == '\x7b') =
      (paramsText (.ofList (trim (textOf inner))) ++ [' ']).countP (· == '\x7b') := by
    rw [List.countP_append, countP_paramsText lasting_openCurly]
    rfl
  obtain ⟨hinnertext, hbody⟩ := Text.append_cons_cancel hparams hcount
  have hheadtext : textOf (.token t :: inner) =
      atHead (.ofList (lower name)) (.ofList (trim (textOf inner))) ++ [' '] := by
    rw [atHead_eq, String.toList_ofList, List.append_assoc, ← hinnertext, hkeyword, htext]
  have hlength : y.length < x.length := by
    rw [hx₁, hx₂]
    simp
    omega
  obtain ⟨hlegible, hblock⟩ := block_inStep (ih hlength) hcut₂ htight hbody
  refine ⟨?_, ?_⟩
  · rw [Component.textOf_append, Component.textOf_append, Component.textOf_singleton, hfront, hblock,
      renderAt_ofAtRule, hheadtext]
  · have hall : ∀ d ∈ .token t :: inner, isInner false d = true :=
      List.forall_mem_cons.2 ⟨by simp [isInner, hkind], hinner⟩
    have hstop : Component.isOpenCurly (.block .curly Token.openCurly [] none) = true := rfl
    have hfirst := hcut₁.isHead (by simp) hx₂ rfl hstart hall groupFrom_openCurly hstop
    rw [legible_ofAtRule, hlegible, opensBlock, headText, gapBeforeBlock, ← hheadtext, hfirst]
    rfl

/-! ### Items that end with a semicolon -/

theorem lasting_semicolon : Lasting (· == ';') := .of_eq rfl rfl

theorem lasting_closeCurly : Lasting (· == '\x7d') := .of_eq rfl rfl

/-- What ends an item without a block, in the text. -/
theorem Stop.ending {stop rest : List Component} {y : List Char} (h : Stop stop rest)
    (hcut : Cut nested y (stop ++ rest) ts) :
    Text.Ending y ∧ ∀ tail, y = ';' :: tail → stop ≠ [] ∧ textOf stop = [';'] := by
  have hy := hcut.text_eq
  cases h with
  | @semicolon t rest ht =>
      have htext : t.text = [';'] := by
        have hshaped := hcut.shaped t (by simp [Component.tokens])
        rwa [Token.Shaped, ht] at hshaped
      have hstop : textOf [.token t] = [';'] := by
        rw [Component.textOf_singleton, Component.text, htext]
      rw [Component.textOf_append, hstop] at hy
      refine ⟨?_, fun _ _ => ⟨by simp, hstop⟩⟩
      rw [hy]
      exact .semicolon _
  | atEnd =>
      cases ts with
      | nil =>
          subst hy
          refine ⟨.nil, ?_⟩
          intro tail htail
          cases htail
      | cons t ts =>
          have htext : t.text = ['\x7d'] := by
            have hshaped := hcut.shaped_rest t List.mem_cons_self
            rwa [Token.Shaped, hcut.stop t rfl] at hshaped
          rw [Token.textOf_cons, htext] at hy
          subst hy
          refine ⟨.bracket _, ?_⟩
          intro tail htail
          cases htail

theorem groupFrom_semicolon (current : List Component) :
    Component.groupFrom (Token.tokenize [';']) current [] =
      (.token Token.semicolon :: current).reverse := by
  rw [Token.tokenize_semicolon, Token.tokenize_nil, Component.groupFrom.eq_def]
  rfl

theorem aligned_statement {depth : Nat} {junk inner stop rest : List Component} {t : Token}
    {name : List Char} {b tail : List Char} {n : Node}
    (hcut : Cut nested x (junk ++ (.token t :: inner ++ stop ++ rest)) ts)
    (hkind : t.kind = .atKeyword name) (hinner : ∀ d ∈ inner, isInner false d = true)
    (hstop : Stop stop rest) (hjunk : mass (textOf junk) = 0)
    (hb : ∀ c ∈ b, Token.isBlank c = true)
    (hn : n = .statement (.ofList (lower name)) (.ofList (trim (textOf inner))))
    (hmass : mass (textOf (.token t :: inner ++ stop)) ≤ weight n)
    (hx : x = b ++ (renderAt .pretty depth n ++ tail)) :
    Aligned nested depth (junk ++ (.token t :: inner ++ stop)) b n := by
  rw [List.append_assoc (.token t :: inner)] at hcut
  obtain ⟨x₁, hx₁, hcut₁⟩ := hcut.append
  obtain ⟨x₂, hx₂, hcut₂⟩ := hcut₁.append
  obtain ⟨hending, hsemicolon⟩ := hstop.ending hcut₂
  have hshaped := hcut₁.shaped t (by simp [Component.tokens])
  have hkeyword : textOf (.token t :: inner) = t.text ++ textOf inner := by
    rw [textOf, Component.text]
  subst hn
  have hkept : mass t.text ≤ mass ('@' :: lower name) := by
    rw [Component.textOf_append, Text.mass_append, hkeyword, Text.mass_append, weight, mass_atHead,
      String.toList_ofList, String.toList_ofList, Text.mass_trim] at hmass
    omega
  have hall : textOf junk ++ (t.text ++ (textOf inner ++ x₂)) =
      b ++ ('@' :: lower name ++
        (paramsText (.ofList (trim (textOf inner))) ++ ';' :: tail)) := by
    rw [hkeyword, List.append_assoc] at hx₂
    rw [← hx₂, ← hx₁, hx, renderAt, headText, atHead_eq, String.toList_ofList]
    simp
  obtain ⟨hfront, htext, hstart, hparams⟩ := keyword_aligned hshaped hkind hkept hall hjunk hb
  obtain ⟨hinnertext, hend⟩ := hending.eq_semicolon hparams
    (countP_paramsText lasting_semicolon _).symm (countP_paramsText lasting_closeCurly _).symm
  obtain ⟨hne, hstoptext⟩ := hsemicolon tail hend
  have hheadtext : textOf (.token t :: inner) =
      atHead (.ofList (lower name)) (.ofList (trim (textOf inner))) := by
    rw [atHead_eq, String.toList_ofList, ← hinnertext, hkeyword, htext]
  refine ⟨?_, ?_⟩
  · rw [Component.textOf_append, Component.textOf_append, hstoptext, hfront, hheadtext, renderAt,
      headText]
  · have hinner' : ∀ d ∈ .token t :: inner, isInner false d = true :=
      List.forall_mem_cons.2 ⟨by simp [isInner, hkind], hinner⟩
    have hlast : Component.isSemicolon (.token Token.semicolon) = true := rfl
    rw [hend] at hx₂
    have hfirst := hcut₁.isHead (by simp [hne]) hx₂ rfl hstart hinner' groupFrom_semicolon hlast
    rw [legible, endsItem, headText, ← hheadtext, hfirst]

theorem length_propertyName (name : List Char) :
    (Declaration.propertyName name).length = name.length := by
  rw [Declaration.propertyName]
  split
  · rfl
  · exact List.length_map ..

/-- The property of a declaration, which starts visibly, stands where it was printed. -/
theorem property_aligned {junk before after r b w tail : List Char} {d : Declaration}
    (h : junk ++ (before ++ ':' :: (after ++ r)) =
      b ++ (d.property.toList ++ ':' :: (w ++ ';' :: tail)))
    (hd : d.Normal) (hcolon : ':' ∉ before)
    (hproperty : d.property.toList = Declaration.propertyName (trim before))
    (hvisible : headIs Token.isBlank before = false) (hjunk : mass junk = 0)
    (hb : ∀ c ∈ b, Token.isBlank c = true) :
    junk = b ∧ before = d.property.toList ∧ after ++ r = w ++ ';' :: tail := by
  have hcount : (junk ++ before).countP (· == ':') = (b ++ d.property.toList).countP (· == ':') := by
    have hplain : ':' ∉ d.property.toList := fun hmem => (hd.plain ':' hmem).1 rfl
    rw [List.countP_append, List.countP_append, countP_light hjunk rfl,
      countP_light (mass_blanks hb) rfl, Text.countP_eq_zero_of_not_mem hcolon,
      Text.countP_eq_zero_of_not_mem hplain]
  rw [← List.append_assoc, ← List.append_assoc] at h
  obtain ⟨heq, hrest⟩ := Text.append_cons_cancel h hcount
  have hlength : d.property.toList.length = (trim before).length := by
    rw [hproperty, length_propertyName]
  have hend := (Text.trimmed_of_plain fun c hc => (hd.plain c hc).2).2
  rw [← List.append_nil d.property.toList] at heq
  obtain ⟨hfront, hname⟩ :=
    Text.append_trim_cancel heq hlength hd.named hend Text.spaces_nil hb hvisible
  rw [List.append_nil] at hname
  exact ⟨hfront, hname, hrest⟩

theorem aligned_declaration {depth : Nat} {junk inner stop rest : List Component} {c : Component}
    {b tail : List Char} {d : Declaration}
    (hcut : Cut nested x (junk ++ (c :: inner ++ stop ++ rest)) ts)
    (hstart : startsItem c = true) (hinner : ∀ e ∈ c :: inner, isInner false e = true)
    (hstop : Stop stop rest) (hjunk : mass (textOf junk) = 0)
    (hb : ∀ c ∈ b, Token.isBlank c = true)
    (hd : Declaration.ofText? (textOf (c :: inner)) = some d)
    (hx : x = b ++ (renderAt .pretty depth (.declaration d) ++ tail)) :
    Aligned nested depth (junk ++ (c :: inner ++ stop)) b (.declaration d) := by
  rw [List.append_assoc (c :: inner)] at hcut
  obtain ⟨x₁, hx₁, hcut₁⟩ := hcut.append
  obtain ⟨x₂, hx₂, hcut₂⟩ := hcut₁.append
  obtain ⟨hending, hsemicolon⟩ := hstop.ending hcut₂
  obtain ⟨e, u, he, heblank⟩ := hcut₁.head_visible hstart
  obtain ⟨before, after, htext, hcolon, hne, -, hproperty, -⟩ := Declaration.ofText?_eq_some hd
  obtain ⟨w, hw⟩ : ∃ w, declarationText .pretty d = d.property.toList ++ ':' :: w := by
    obtain ⟨sp, gap, -, -, hdecl⟩ := Declaration.declarationText_eq .pretty d
    exact ⟨_, hdecl⟩
  have hvisible : headIs Token.isBlank before = false := by
    cases before with
    | nil => rfl
    | cons a before =>
        rw [he, List.cons_append, List.cons.injEq] at htext
        rw [← htext.1]
        exact heblank
  have hrender : renderAt .pretty depth (.declaration d) = declarationText .pretty d ++ [';'] := by
    rw [renderAt]
  have hall : textOf junk ++ (before ++ ':' :: (after ++ x₂)) =
      b ++ (d.property.toList ++ ':' :: (w ++ ';' :: tail)) := by
    rw [htext] at hx₂
    rw [hrender, hw, hx₁, hx₂] at hx
    simpa using hx
  obtain ⟨hfront, hname, hvalue⟩ :=
    property_aligned hall (Declaration.normal_of_ofText? hd) hcolon hproperty hvisible hjunk hb
  have hcount : ∀ {p : Char → Bool}, Lasting p → after.countP p = w.countP p := by
    intro p hp
    have hboth := Declaration.countP_declarationText hp hd
    rw [hw, htext, hname, List.countP_append, List.countP_append, List.countP_cons,
      List.countP_cons] at hboth
    omega
  obtain ⟨hafter, hend⟩ :=
    hending.eq_semicolon hvalue (hcount lasting_semicolon) (hcount lasting_closeCurly)
  obtain ⟨hstopne, hstoptext⟩ := hsemicolon tail hend
  have hheadtext : textOf (c :: inner) = declarationText .pretty d := by
    rw [htext, hw, hname, hafter]
  refine ⟨?_, ?_⟩
  · rw [Component.textOf_append, Component.textOf_append, hstoptext, hfront, hheadtext, hrender]
  · have hlast : Component.isSemicolon (.token Token.semicolon) = true := rfl
    rw [hend] at hx₂
    have hfirst := hcut₁.isHead (by simp [hstopne]) hx₂ rfl hstart hinner groupFrom_semicolon
      hlast
    rw [legible, endsItem, ← hheadtext, hfirst]

/-! ### Comments -/

theorem textOf_blanks (b : List Char) : textOf (Component.blanks b) = b := by
  rw [Component.blanks]
  split
  · next hnil =>
      rw [hnil, textOf]
  · rw [Component.textOf_singleton, Component.text]

/-- A comment is one token wherever it stands, so it is read where it was printed. -/
theorem exists_front_comment {depth : Nat} {cs : List Component} {text : String} {ns : List Node}
    {b tail : List Char} (hcut : Cut nested x cs ts) (htight : Tight cs)
    (hread : readFrom (.between []) cs = .comment text :: ns)
    (hb : ∀ c ∈ b, Token.isBlank c = true)
    (hx : x = b ++ (renderAt .pretty depth (.comment text) ++ tail)) :
    ∃ front rest, cs = front ++ rest ∧ Aligned nested depth front b (.comment text) ∧
      readFrom (.between []) rest = ns ∧ Tight rest := by
  have hclosed : Text.occurs ['*', '/'] text.toList = false := by
    have hsettled := settled_readFrom cs (p := .between []) trivial hcut.shaped
    rw [hread, SettledAll, Settled] at hsettled
    exact hsettled.1
  rw [renderAt] at hx
  rw [hx] at hcut
  obtain ⟨cs₁, rfl, hcut₁⟩ := hcut.blanks hb rfl
  obtain ⟨t, hkind, htext, htokens⟩ : ∃ t : Token, t.kind = .comment text.toList true ∧
      t.text = ['/', '*'] ++ text.toList ++ ['*', '/'] ∧
      Token.tokenize (['/', '*'] ++ text.toList ++ ['*', '/'] ++ tail) = t :: Token.tokenize tail :=
    ⟨_, rfl, rfl, Token.tokenize_comment hclosed tail⟩
  obtain ⟨rest, rfl, -⟩ := hcut₁.token htokens (by simp [hkind]) (by simp [hkind])
  have hitem : Item rest [.token t] [.comment (.ofList text.toList)] := .comment hkind
  have htight₁ : Tight (.token t :: rest) := by
    rw [Tight, readFrom_blanks, Component.textOf_append, Text.mass_append] at htight
    exact Nat.le_of_add_left_le htight
  refine ⟨Component.blanks b ++ [.token t], rest, by simp, ⟨?_, ?_⟩, ?_, ?_⟩
  · rw [Component.textOf_append, textOf_blanks, Component.textOf_singleton, Component.text, htext,
      renderAt]
  · rw [legible]
  · have hrest := hitem.readFrom_append
    rw [readFrom_blanks] at hread
    rw [List.singleton_append, hread, List.singleton_append, List.cons.injEq] at hrest
    exact hrest.2.symm
  · exact (hitem.tight hcut₁ htight₁).2

/-! ### All nodes -/

/-- The first node is in step, if the blocks in it are. -/
theorem exists_front {depth : Nat} {cs : List Component} {n : Node} {ns : List Node}
    {b tail : List Char}
    (ih : ∀ {body : List Component} {y : List Char} {us : List Token} {b z : List Char},
      y.length < x.length → Reprinted true (depth + 1) y body us b z →
        InStep true (depth + 1) body b z)
    (hcut : Cut nested x cs ts) (htight : Tight cs) (hread : readFrom (.between []) cs = n :: ns)
    (hb : ∀ c ∈ b, Token.isBlank c = true)
    (hx : x = b ++ (renderAt .pretty depth n ++ tail)) :
    ∃ front rest, cs = front ++ rest ∧ Aligned nested depth front b n ∧
      readFrom (.between []) rest = ns ∧ Tight rest := by
  obtain ⟨junk, item, rest, rfl, hjunk, hitem, hrest, hmass, htight'⟩ :=
    exists_node cs hcut htight hread
  generalize hn : [n] = all at hitem
  cases hitem with
  | skipped hkind => cases hn
  | comment hkind =>
      cases hn
      exact exists_front_comment hcut htight hread hb hx
  | plain hstart hinner hstop =>
      rw [Pending.finish] at hn
      cases hd : Declaration.ofText? _ with
      | none =>
          rw [hd] at hn
          cases hn
      | some d =>
          rw [hd] at hn
          cases hn
          exact ⟨_, rest, (List.append_assoc ..).symm,
            aligned_declaration hcut hstart hinner hstop hjunk hb hd hx, hrest, htight'⟩
  | rule hstart hinner =>
      exact ⟨_, rest, (List.append_assoc ..).symm,
        aligned_rule ih hcut hstart hinner hjunk hb (List.cons.inj hn).1 hmass hx, hrest, htight'⟩
  | statement hkind hinner hstop =>
      exact ⟨_, rest, (List.append_assoc ..).symm,
        aligned_statement hcut hkind hinner hstop hjunk hb (List.cons.inj hn).1 hmass hx, hrest,
        htight'⟩
  | atRule hkind hinner =>
      exact ⟨_, rest, (List.append_assoc ..).symm,
        aligned_atRule ih hcut hkind hinner hjunk hb (List.cons.inj hn).1 hmass hx, hrest, htight'⟩

theorem renderAt_ne_nil (depth : Nat) (n : Node) : renderAt .pretty depth n ≠ [] := by
  cases n with
  | declaration d => simp [renderAt]
  | comment text => simp [renderAt]
  | statement name params => simp [renderAt]
  | _ => simp [renderAt, blockText_eq]

/-- The pretty text of a list is that of its first node, and then the others after a gap. -/
theorem renderList_pretty_cons (depth : Nat) (n : Node) (ns : List Node) :
    ∃ gap, (∀ c ∈ gap, Token.isBlank c = true) ∧
      renderList .pretty depth (n :: ns) = indentation .pretty depth ++
        (renderAt .pretty depth n ++ (gap ++ renderList .pretty depth ns)) := by
  by_cases hns : ns = []
  · refine ⟨[], by simp, ?_⟩
    simp [renderList, hns]
  · obtain ⟨gap, hgap, htext⟩ := renderList_cons .pretty depth n hns
    refine ⟨gap, hgap, ?_⟩
    simpa [closedText] using htext

/-- A text and the tree that is read from it are in step to the end. -/
theorem Reprinted.inStep {nested : Bool} {depth : Nat} {x : List Char} {cs : List Component}
    {ts : List Token} {b z : List Char} (h : Reprinted nested depth x cs ts b z) :
    InStep nested depth cs b z := by
  obtain ⟨hcut, htight, hb, hz, tail, hx, htail⟩ := h
  rw [InStep]
  cases hread : readFrom (.between []) cs with
  | nil =>
      rw [hread, renderList, List.append_nil, ← List.append_assoc] at hx
      rw [renderList, legibleAll, List.append_nil]
      refine ⟨rfl, ?_⟩
      cases nested with
      | false =>
          obtain ⟨rfl, rfl⟩ := htail
          have htext := hcut.text_eq
          rw [hx, Token.textOf_nil, List.append_nil, List.append_nil] at htext
          exact htext.symm
      | true =>
          obtain ⟨y, rfl⟩ : ∃ y, tail = '\x7d' :: y := by
            cases tail with
            | nil => cases htail
            | cons c y =>
                obtain rfl : c = '\x7d' := beq_iff_eq.1 htail
                exact ⟨y, rfl⟩
          rw [hx] at hcut
          obtain ⟨rest, rfl, hrest⟩ := hcut.blanks (isBlank_append hb hz) rfl
          rw [hrest.eq_nil, List.append_nil, textOf_blanks]
  | cons n ns =>
      obtain ⟨gap, hgap, htext⟩ := renderList_pretty_cons depth n ns
      have hx' : x = (b ++ indentation .pretty depth) ++ (renderAt .pretty depth n ++
          (gap ++ renderList .pretty depth ns ++ (z ++ tail))) := by
        rw [hx, hread, htext]
        simp
      obtain ⟨front, rest, rfl, ⟨hfront, hlegible⟩, hrest, htight'⟩ :=
        exists_front (fun hlt hbody => hbody.inStep) hcut htight hread
          (isBlank_append hb (isBlank_indentation .pretty depth)) hx'
      obtain ⟨y, hy, hcut'⟩ := hcut.append
      have hgo : y = gap ++ renderList .pretty depth ns ++ (z ++ tail) := by
        rw [hfront, hx', ← List.append_assoc] at hy
        exact (List.append_cancel_left hy).symm
      have hlength : y.length < x.length := by
        have hpos := List.length_pos_iff.2 (renderAt_ne_nil depth n)
        rw [hy, hfront, List.length_append, List.length_append]
        omega
      have hnext : Reprinted nested depth y rest ts gap z :=
        ⟨hcut', htight', hgap, hz, tail, by rw [hgo, hrest], htail⟩
      obtain ⟨hlegibles, htexts⟩ := hnext.inStep
      rw [hrest] at hlegibles htexts
      refine ⟨by rw [legibleAll, hlegible, hlegibles]; rfl, ?_⟩
      rw [Component.textOf_append, hfront, htexts, htext]
      simp
termination_by x.length

/-- Only legible trees have a pretty text from which they are read. -/
theorem legibleAll_of_renderList {x : List Char}
    (h : renderList .pretty 0 (read (Component.group (Token.tokenize x))) = x) :
    legibleAll .pretty false (read (Component.group (Token.tokenize x))) = true := by
  have hcut : Cut false x (Component.group (Token.tokenize x)) [] := by
    refine ⟨?_, Component.group_grouped _, by simp, by simp⟩
    rw [Component.tokensOf_group, List.append_nil]
  have htight : Tight (Component.group (Token.tokenize x)) := by
    have hmass := mass_renderList 0 (read (Component.group (Token.tokenize x)))
    rw [h] at hmass
    rw [Tight, Component.textOf_group, Token.textOf_tokenize, hmass]
    exact Nat.le_refl _
  have hall : Reprinted false 0 x (Component.group (Token.tokenize x)) [] [] [] := by
    refine ⟨hcut, htight, by simp, by simp, [], ?_, rfl, rfl⟩
    rw [List.nil_append, List.append_nil, List.append_nil]
    exact h.symm
  exact hall.inStep.1

end Stylesheet.Node

namespace Stylesheet

/-- A stylesheet that is read back from its pretty text has legible heads. -/
theorem Document.legibleAll_of_ofText_render {document : Document}
    (h : Document.ofText (document.render .pretty) = document) :
    Node.legibleAll .pretty false document.nodes = true := by
  have hnodes := congrArg Document.nodes h
  rw [Document.ofText, Document.render, String.toList_ofList] at hnodes
  dsimp only at hnodes
  rw [← hnodes]
  refine Node.legibleAll_of_renderList ?_
  rw [hnodes]

/-- Printing and reading a stylesheet that was read changes nothing exactly when its heads are
legible. -/
theorem Document.ofText_render_ofText_iff (css : String) :
    Document.ofText ((Document.ofText css).render .pretty) = Document.ofText css ↔
      Node.legibleAll .pretty false (Document.ofText css).nodes = true := by
  constructor
  · exact Document.legibleAll_of_ofText_render
  · exact Document.ofText_render (Document.settledAll_ofText css)

-- Trimming a value can leave a backslash at its end, which escapes the semicolon after it.
example : Node.legibleAll .pretty false (Document.ofText "a:b\\ ;c:d").nodes = false := by
  decide +kernel

-- The name of an at-rule is kept without its escapes.
example : Node.legibleAll .pretty false (Document.ofText "@a\\ b x;").nodes = false := by
  decide +kernel

end Stylesheet
