import Stylesheet.Proofs.Everywhere
import Stylesheet.Proofs.LayerWalk
import Stylesheet.Proofs.Reprint
import Stylesheet.Proofs.SettledReading
import Stylesheet.Proofs.SimpleText
import Stylesheet.Proofs.ValueText

/-!
# Orphans in the text of their layer

What stands at the top level of a stylesheet is collected into a layer, and the layer is written and may be
read again.  At the top level a closing bracket that closes nothing is an ordinary token, so it can get into
a selector or a declaration there; and so does the end of a dropped block that comes directly before.  In
the layer such a bracket closes the layer.

For simple texts this is all that can go wrong.  The layer is read back from its text if and only if no
selector, no property and no value in it has a closing bracket (`ofText_render_ofLayer_iff`).

* What is read from a simple text are rules and declarations with *sound* heads (`everywhere_sound_ofText`):
  they are simple, and they have no semicolons and opening brackets unless they have a closing bracket, too.
  A semicolon or an opening bracket can only come from a dropped block, and then so does its closing bracket.
  So all that is read goes into the layer (`orphans?_ofText`).
* A sound head is legible in a block just when it has no closing bracket (`legibleAll_iff`).
* A settled tree is read back from its text just when its heads are legible (`ofText_render_iff`).
-/

namespace Stylesheet

open Stylesheet.Text (trim headIs isSpace isSimple Lasting)
open Stylesheet.Token (isEdge)
open Component (Closed CutOff Grouped tokens tokensOf startsItem)

/-! ## Reading back -/

/-- A settled stylesheet is read back from its pretty text if and only if its heads are legible. -/
theorem Document.ofText_render_iff {document : Document}
    (h : Node.SettledAll .pretty document.nodes) :
    Document.ofText (document.render .pretty) = document ↔
      Node.legibleAll .pretty false document.nodes = true := by
  constructor
  · exact Document.legibleAll_of_ofText_render
  · exact Document.ofText_render h

/-! ## Sound texts -/

namespace Text

/-- Is a text simple, and without semicolons and opening brackets unless it has a closing bracket? -/
def isSound (text : List Char) : Bool :=
  text.all isSimple && (text.contains '\x7d' || text.all fun c => !isEdge c)

/-- What makes a text sound. -/
structure Sound (text : List Char) : Prop where
  /-- The characters are simple. -/
  chars : ∀ c ∈ text, isSimple c = true
  /-- Without a closing bracket there are no semicolons and no opening brackets. -/
  edge : '\x7d' ∉ text → ∀ c ∈ text, isEdge c = false

theorem isSound_iff {text : List Char} : isSound text = true ↔ Sound text := by
  have hedge : (text.contains '\x7d' || text.all fun c => !isEdge c) = true ↔
      ('\x7d' ∉ text → ∀ c ∈ text, isEdge c = false) := by
    simp only [Bool.or_eq_true, List.contains_iff_mem, List.all_eq_true, Bool.not_eq_true']
    exact or_iff_not_imp_left
  rw [isSound, Bool.and_eq_true, List.all_eq_true, hedge]
  exact ⟨fun h => ⟨h.1, h.2⟩, fun h => ⟨h.chars, h.edge⟩⟩

theorem sound_nil : Sound [] :=
  ⟨fun _ hc => absurd hc List.not_mem_nil, fun _ _ hc => absurd hc List.not_mem_nil⟩

theorem sound_of_mem {text : List Char} (h : ∀ c ∈ text, isSimple c = true)
    (hclose : '\x7d' ∈ text) : Sound text :=
  ⟨h, fun hnot => absurd hclose hnot⟩

theorem Sound.append {a b : List Char} (ha : Sound a) (hb : Sound b) : Sound (a ++ b) := by
  refine ⟨List.forall_mem_append.2 ⟨ha.chars, hb.chars⟩, fun hclose => ?_⟩
  rw [List.mem_append, not_or] at hclose
  exact List.forall_mem_append.2 ⟨ha.edge hclose.1, hb.edge hclose.2⟩

theorem lasting_of_isEdge {e : Char} (h : isEdge e = true) : Lasting (· == e) := by
  rcases Token.isEdge_iff.1 h with rfl | rfl | rfl
  · exact .of_eq rfl rfl
  · exact .of_eq rfl rfl
  · exact .of_eq rfl rfl

/-- Simple texts with the same numbers of semicolons and brackets are sound together. -/
theorem Sound.congr {a b : List Char} (h : Sound a) (hchars : ∀ c ∈ b, isSimple c = true)
    (hcount : ∀ e, isEdge e = true → b.countP (· == e) = a.countP (· == e)) : Sound b := by
  have hmem : ∀ e, isEdge e = true → (e ∈ b ↔ e ∈ a) := by
    intro e he
    rw [← List.count_pos_iff, ← List.count_pos_iff, List.count_eq_countP, List.count_eq_countP,
      hcount e he]
  refine ⟨hchars, fun hclose c hc => ?_⟩
  rw [← Bool.not_eq_true]
  intro hedge
  rw [hmem _ rfl] at hclose
  have hfalse := h.edge hclose c ((hmem c hedge).1 hc)
  rw [hedge] at hfalse
  cases hfalse

theorem sound_trim {text : List Char} (h : Sound text) : Sound (trim text) :=
  h.congr (fun c hc => h.chars c (Declaration.mem_trim hc))
    fun _ he => (lasting_of_isEdge he).countP_trim text

end Text

open Text (Sound)

namespace Declaration

theorem splitImportance_eq {text : List Char} (h : '!' ∉ text) :
    splitImportance text = (trim text, false) := by
  rw [splitImportance, Text.splitLast?_eq_none fun hmem => h (mem_trim hmem)]

theorem isSimple_propertyName {name : List Char} (h : ∀ c ∈ name, isSimple c = true) :
    ∀ c ∈ propertyName name, isSimple c = true := by
  rw [propertyName]
  split
  · exact h
  · exact List.forall_mem_map.2 fun c hc => Text.isSimple_toLower (h c hc)

/-- The text of a declaration is sound if it is read from a sound text. -/
theorem sound_declarationText {text : List Char} (h : Sound text) {d : Declaration}
    (hd : ofText? text = some d) : Sound (Node.declarationText .pretty d) := by
  refine h.congr ?_ fun _ he => countP_declarationText (Text.lasting_of_isEdge he) hd
  obtain ⟨before, after, rfl, -, -, -, hproperty, hvalue⟩ := ofText?_eq_some hd
  obtain ⟨hbefore, hafter⟩ := List.forall_mem_append.1 h.chars
  rw [List.forall_mem_cons] at hafter
  have hmark : '!' ∉ after := Text.not_mem_of_isSimple hafter.2 rfl
  rw [splitImportance_eq hmark, Prod.mk.injEq] at hvalue
  rw [Node.declarationText, hproperty, ← hvalue.1, ← hvalue.2]
  simp only [Bool.false_eq_true, if_false, List.append_nil]
  refine List.forall_mem_append.2 ⟨List.forall_mem_append.2 ⟨?_, ?_⟩, ?_⟩
  · exact isSimple_propertyName fun c hc => hbefore c (mem_trim hc)
  · simp [isSimple, Text.simpleSigns]
  · exact fun c hc => hafter.2 c (mem_trim hc)

end Declaration

namespace Node

/-! ## Sound trees -/

/-- The text of a rule or declaration in front of its block or its semicolon. -/
def head? : Node → Option (List Char)
  | .rule selector _ => some selector.toList
  | .declaration d => some (declarationText .pretty d)
  | _ => none

/-- Is a text sound, with something else than a space in front? -/
def isSoundHead (head : List Char) : Bool := Text.isSound head && headIs (fun c => !isSpace c) head

/-- Is a node a rule or declaration with a sound head? -/
def isSound (n : Node) : Bool := n.head?.any isSoundHead

theorem isSoundHead_iff {head : List Char} :
    isSoundHead head = true ↔ Sound head ∧ ∃ c cs, head = c :: cs ∧ isSpace c = false := by
  rw [isSoundHead, Bool.and_eq_true, Text.isSound_iff]
  refine and_congr_right fun _ => ?_
  cases head with
  | nil => simp [headIs]
  | cons c cs => simp [headIs]

/-- Is what has been seen of an item the sound start of a rule or declaration? -/
def Pending.Sound : Pending → Prop
  | .between dropped => Text.Sound dropped
  | .atRule _ _ => False
  | .item text => Text.Sound text ∧ ∃ c ∈ text, isSpace c = false

theorem Pending.Sound.extend {p : Pending} (h : p.Sound) {text : List Char} (htext : Text.Sound text)
    (hvisible : p.isStarted = true ∨ ∃ c ∈ text, isSpace c = false) : (p.extend text).Sound := by
  cases p with
  | between dropped =>
      obtain ⟨c, hc, hspace⟩ := hvisible.resolve_left Bool.false_ne_true
      exact ⟨Text.Sound.append h htext, c, List.mem_append_right dropped hc, hspace⟩
  | atRule name params => exact h.elim
  | item seen =>
      obtain ⟨hseen, c, hc, hspace⟩ := h
      exact ⟨hseen.append htext, c, List.mem_append_left text hc, hspace⟩

/-- A selector is sound if it is read from a sound text. -/
theorem isSoundHead_trim {text : List Char} (h : Sound text) (hvisible : ∃ c ∈ text, isSpace c = false) :
    isSoundHead (trim text) = true := by
  obtain ⟨c, hc, hspace⟩ := hvisible
  refine isSoundHead_iff.2 ⟨Text.sound_trim h, ?_⟩
  have hhead := (Text.trimmed_trim text).1
  cases htrim : trim text with
  | nil => exact absurd htrim (Text.trim_ne_nil hc hspace)
  | cons d ds =>
      rw [htrim] at hhead
      exact ⟨d, ds, rfl, hhead⟩

theorem isSound_declaration {text : List Char} (h : Sound text) {d : Declaration}
    (hd : Declaration.ofText? text = some d) : isSound (.declaration d) = true := by
  have hnormal := Declaration.normal_of_ofText? hd
  refine isSoundHead_iff.2 ⟨Declaration.sound_declarationText h hd, ?_⟩
  cases hproperty : d.property.toList with
  | nil => exact absurd hproperty hnormal.named
  | cons c cs =>
      refine ⟨c, _, by rw [declarationText, hproperty]; rfl, (hnormal.plain c ?_).2⟩
      rw [hproperty]
      exact List.mem_cons_self

theorem everywhere_sound_finish {p : Pending} (h : p.Sound) : Everywhere isSound p.finish := by
  cases p with
  | between dropped => exact everywhere_nil
  | atRule name params => exact h.elim
  | item text =>
      rw [Pending.finish]
      cases hd : Declaration.ofText? text with
      | none => exact everywhere_nil
      | some d => exact everywhere_singleton.2 ⟨isSound_declaration h.1 hd, everywhere_nil⟩

/-! ## Reading gives sound trees -/

theorem sound_text {t : Token} (ht : t.Simple) (hopening : ∀ b, t.kind ≠ .opening b)
    (hsemicolon : t.kind ≠ .semicolon) :
    Sound t.text ∧ (t.kind = .blank ∨ ∃ c ∈ t.text, isSpace c = false) := by
  cases ht with
  | semicolon => exact absurd rfl hsemicolon
  | openCurly => exact absurd rfl (hopening .curly)
  | closeCurly =>
      have hmem : '\x7d' ∈ Token.closeCurly.text := List.mem_singleton_self _
      exact ⟨Text.sound_of_mem Token.Simple.closeCurly.chars hmem, .inr ⟨_, hmem, rfl⟩⟩
  | neutral h =>
      refine ⟨⟨fun c hc => (h.chars c hc).1, fun _ c hc => (h.chars c hc).2⟩, ?_⟩
      obtain ⟨c, cs, htext, hblank⟩ := h.first
      by_cases hkind : t.kind = .blank
      · exact .inl hkind
      · have hc : c ∈ t.text := by
          rw [htext]
          exact List.mem_cons_self
        rw [hblank, Bool.not_eq_true, ← Text.isSpace_eq_isBlank (h.chars c hc).1] at hkind
        exact .inr ⟨c, hc, hkind⟩

theorem sound_readToken {p : Pending} (hp : p.Sound) {t : Token} (ht : t.Simple)
    (hopening : ∀ b, t.kind ≠ .opening b) :
    Everywhere isSound (readToken p t).1 ∧ (readToken p t).2.Sound := by
  have hkind := ht.kind
  rw [readToken.eq_def]
  split
  · exact ⟨everywhere_nil, Text.sound_nil⟩
  · exact ⟨everywhere_nil, Text.sound_nil⟩
  · next hcomment => simp [hcomment] at hkind
  · next hkeyword => simp [hkeyword] at hkind
  · exact ⟨everywhere_sound_finish hp, Text.sound_nil⟩
  · next p _ _ hsemicolon hblank _ _ _ =>
      obtain ⟨htext, hvisible⟩ := sound_text ht hopening hsemicolon
      refine ⟨everywhere_nil, hp.extend htext (hvisible.imp_left fun hspace => ?_)⟩
      cases p with
      | between dropped => exact absurd hspace (hblank dropped rfl)
      | atRule | item => rfl

mutual

theorem sound_readStep : (c : Component) → {around : Option Bracket} → Closed around c ∨ CutOff c →
    (∀ t ∈ tokens c, t.Simple) → {p : Pending} → p.Sound →
    Everywhere isSound (readStep p c).1 ∧ Everywhere isSound (readStep p c).2.finish ∧
      (Closed around c → (readStep p c).2.Sound)
  | .token t, around, h, ht, p, hp => by
      have hopening : ∀ b, t.kind ≠ .opening b := by
        intro b hb
        rw [Closed, CutOff, hb] at h
        exact h.elim id id
      obtain ⟨hnodes, hnext⟩ := sound_readToken hp (ht t (by simp [tokens])) hopening
      rw [readStep]
      exact ⟨hnodes, everywhere_sound_finish hnext, fun _ => hnext⟩
  | .block bracket opener body closer, around, h, ht, p, hp => by
      obtain rfl := (ht opener (by simp [tokens])).eq_curly (Component.kind_opener h)
      have hsimple : ∀ t ∈ tokensOf body, t.Simple := by
        intro t hmem
        exact ht t (by simp [tokens, hmem])
      have hgrouped := Component.grouped_body h
      cases p with
      | between dropped =>
          -- The dropped block may have semicolons.  What it leaves is sound because its end is there, and
          -- when the end of the text cuts the block off, nothing is read behind it.
          refine ⟨everywhere_nil, everywhere_nil, fun hclosed => ?_⟩
          rw [Closed] at hclosed
          obtain ⟨-, ⟨t, rfl, hkind⟩, -⟩ := hclosed
          obtain rfl := (ht t (by simp [tokens])).eq_closeCurly hkind
          refine Text.sound_of_mem (List.forall_mem_append.2 ⟨?_, Token.Simple.closeCurly.chars⟩) ?_
          · exact fun c hc => Component.isSimple_of_mem_textOf hsimple hc
          · exact List.mem_append_right _ (List.mem_singleton_self _)
      | atRule name params => exact hp.elim
      | item text =>
          refine ⟨everywhere_singleton.2 ⟨?_, ?_⟩, everywhere_nil, fun _ => Text.sound_nil⟩
          · show isSoundHead (String.ofList (trim text)).toList = true
            rw [String.toList_ofList]
            exact isSoundHead_trim hp.1 hp.2
          · exact sound_readFrom body hgrouped hsimple (p := .between []) Text.sound_nil
termination_by structural c => c

/-- What is read from simple tokens is sound. -/
theorem sound_readFrom : (cs : List Component) → {around : Option Bracket} → Grouped around cs →
    (∀ t ∈ tokensOf cs, t.Simple) → {p : Pending} → p.Sound → Everywhere isSound (readFrom p cs)
  | [], _, _, _, p, hp => by
      rw [readFrom]
      exact everywhere_sound_finish hp
  | c :: cs, around, h, ht, p, hp => by
      have hfirst : ∀ t ∈ tokens c, t.Simple := fun t hmem => ht t (by simp [hmem])
      have hrest : ∀ t ∈ tokensOf cs, t.Simple := fun t hmem => ht t (by simp [hmem])
      obtain ⟨hnodes, hfinish, hnext⟩ := sound_readStep c h.head hfirst hp
      rw [readFrom, everywhere_append]
      refine ⟨hnodes, ?_⟩
      rw [Grouped] at h
      rcases h with ⟨hclosed, hcs⟩ | ⟨-, rfl⟩
      · exact sound_readFrom cs hcs hrest (hnext hclosed)
      · rw [readFrom]
        exact hfinish
termination_by structural cs => cs

end

/-- What is read from a simple text is sound. -/
theorem everywhere_sound_ofText {css : String} (h : ∀ c ∈ css.toList, isSimple c = true) :
    Everywhere isSound (Document.ofText css).nodes := by
  refine sound_readFrom _ (Component.group_grouped _) ?_ (p := .between []) Text.sound_nil
  rw [Component.tokensOf_group]
  exact Token.simple_tokenize h

/-! ## Legible heads -/

/-- Does a rule or declaration have a closing bracket in its selector, its property or its value? -/
def closes : Node → Bool
  | .rule selector _ => selector.toList.contains '\x7d'
  | .declaration d => d.property.toList.contains '\x7d' || d.value.toList.contains '\x7d'
  | _ => false

theorem closes_declaration (d : Declaration) :
    closes (.declaration d) = (declarationText .pretty d).contains '\x7d' := by
  have hmark : (if d.important then " !important".toList else []).contains '\x7d' = false := by
    cases d.important with
    | true => rfl
    | false => rfl
  have hcolon : [':', ' '].contains '\x7d' = false := rfl
  rw [closes, declarationText, List.contains_append, List.contains_append, List.contains_append, hmark,
    hcolon, Bool.or_false, Bool.or_false]

/-- In a block, a sound head is a head just when there is no closing bracket in it. -/
theorem isHead_of_isSoundHead {e : Char} {t : Token} {stop : Component → Bool}
    (hend : Component.HeadEnd e t stop) (he : isEdge e = true)
    (hstop : ∀ c, stop c = true → ∃ u, tokens c = [u] ∧ u.text = [e]) {head : List Char}
    (h : isSoundHead head = true) (gap : List Char) (hgap : ∀ c ∈ gap, c = ' ') :
    Component.isHead true startsItem stop (head ++ gap ++ [e]) = !head.contains '\x7d' := by
  obtain ⟨hsound, c, cs, rfl, hspace⟩ := isSoundHead_iff.1 h
  have hspaces : ∀ d ∈ gap, isSimple d = true ∧ isEdge d = false := by
    intro d hd
    rw [hgap d hd]
    exact ⟨rfl, rfl⟩
  cases hclose : (c :: cs).contains '\x7d' with
  | true =>
      refine Component.isHead_eq_false he hstop ?_ ?_
      · exact List.forall_mem_append.2 ⟨hsound.chars, fun d hd => (hspaces d hd).1⟩
      · exact List.mem_append_left _ (List.contains_iff_mem.1 hclose)
  | false =>
      have hnot : '\x7d' ∉ c :: cs := by
        intro hmem
        rw [List.contains_iff_mem.2 hmem] at hclose
        cases hclose
      refine Component.isHead_of_simple true hend ?_ (List.cons_ne_nil _ _) ?_
      · exact List.forall_mem_append.2
          ⟨fun d hd => ⟨hsound.chars d hd, hsound.edge hnot d hd⟩, hspaces⟩
      · show Token.isBlank c = false
        rwa [← Text.isSpace_eq_isBlank (hsound.chars c List.mem_cons_self)]

theorem opensBlock_of_isSoundHead {head : List Char} (h : isSoundHead head = true) :
    opensBlock .pretty true startsItem head = !head.contains '\x7d' :=
  isHead_of_isSoundHead Component.headEnd_openCurly rfl Component.tokens_of_isOpenCurly h
    [' '] (List.forall_mem_singleton.2 rfl)

theorem endsItem_of_isSoundHead {head : List Char} (h : isSoundHead head = true) :
    endsItem true startsItem head = !head.contains '\x7d' := by
  have hhead := isHead_of_isSoundHead Component.headEnd_semicolon rfl Component.tokens_of_isSemicolon h
    [] fun _ hc => absurd hc List.not_mem_nil
  rwa [List.append_nil] at hhead

theorem legibleAll_iff_forall {style : Style} {nested : Bool} {nodes : List Node} :
    legibleAll style nested nodes = true ↔ ∀ n ∈ nodes, legible style nested n = true := by
  induction nodes with
  | nil => simp [legibleAll]
  | cons n ns ih => rw [legibleAll, Bool.and_eq_true, ih, List.forall_mem_cons]

/-- In a block, sound nodes are legible just when no closing bracket is in their texts. -/
theorem legibleAll_iff {nodes : List Node} (h : Everywhere isSound nodes) :
    legibleAll .pretty true nodes = true ↔ Everywhere (fun n => !closes n) nodes := by
  have hnode : ∀ n, Everywhere isSound [n] →
      (legible .pretty true n = true ↔ Everywhere (fun n => !closes n) [n]) := by
    intro n
    induction n using Node.inductionOn with
    | rule selector children ih =>
        intro hn
        obtain ⟨hhead, hchildren⟩ := everywhere_singleton.1 hn
        rw [legible, Bool.and_eq_true, opensBlock_of_isSoundHead hhead, everywhere_singleton, closes,
          legibleAll_iff_forall, @everywhere_iff _ (Node.block _)]
        exact and_congr_right fun _ => forall₂_congr fun n hmem =>
          ih n hmem (everywhere_iff.1 hchildren n hmem)
    | declaration d =>
        intro hn
        rw [legible, endsItem_of_isSoundHead (everywhere_singleton.1 hn).1, everywhere_singleton,
          closes_declaration]
        exact (and_iff_left everywhere_nil).symm
    | layer | media | atRule | comment | statement =>
        intro hn
        cases (everywhere_singleton.1 hn).1
  rw [legibleAll_iff_forall, everywhere_iff]
  exact forall₂_congr fun n hmem => hnode n (everywhere_iff.1 h n hmem)

end Node

/-! ## Orphans in their layer -/

/-- The stylesheet whose only node is a layer. -/
def Document.ofLayer (block : Layer.Block) : Document := ⟨[block.node]⟩

/-- All nodes that are read from a simple text are orphans. -/
theorem Layer.orphans_ofText {css : String} (h : ∀ c ∈ css.toList, isSimple c = true) :
    orphans (Document.ofText css).nodes = (Document.ofText css).nodes := by
  refine List.filter_eq_self.2 fun n hn => ?_
  have hsound := Node.everywhere_iff.1 (Node.everywhere_sound_ofText h) n hn
  cases n with
  | rule | declaration => rfl
  | layer | media | atRule | comment | statement => cases (Node.everywhere_singleton.1 hsound).1

/-- All that is read from a simple text goes into the layer of the orphans. -/
theorem Layer.orphans?_ofText {css : String} (h : ∀ c ∈ css.toList, isSimple c = true)
    (hne : (Document.ofText css).nodes ≠ []) (name : String) :
    orphans? name (rest (Document.ofText css).nodes) =
      some ⟨some name, (Document.ofText css).nodes⟩ := by
  rw [orphans?_rest, orphans_ofText h, if_neg hne]

namespace Document

variable {css name : String}

/-- A layer with what was read from a simple text is read back from its text, if and only if no selector,
no property and no value in it has a closing bracket. -/
theorem ofText_render_ofLayer_iff (hcss : ∀ c ∈ css.toList, isSimple c = true) (hne : name ≠ "")
    (hname : ∀ c ∈ name.toList, c.isLower = true) :
    Document.ofText ((ofLayer ⟨some name, (Document.ofText css).nodes⟩).render .pretty) =
        ofLayer ⟨some name, (Document.ofText css).nodes⟩ ↔
      Node.Everywhere (fun n => !n.closes) (Document.ofText css).nodes := by
  have hword : ∀ c ∈ name.toList, Text.isWordChar c = true := by
    intro c hc
    rw [Text.isWordChar, hname c hc]
    rfl
  have hstyle : Node.asWritten .pretty name = name := String.ofList_toList
  have hlayer : Text.isWord "layer".toList = true := rfl
  obtain ⟨hat, hopens, -⟩ := Node.settled_of_word false hlayer (Node.safe_of_word hword) hstyle
  have hsettled : Node.SettledAll .pretty (ofLayer ⟨some name, (Document.ofText css).nodes⟩).nodes := by
    rw [ofLayer, Layer.Block.node, Node.SettledAll, Node.SettledAll, Node.Settled]
    exact ⟨⟨fun hnone => hne (Option.some.inj hnone), hat, settledAll_ofText css⟩, trivial⟩
  rw [ofText_render_iff hsettled, ofLayer, Layer.Block.node, Node.legibleAll, Node.legibleAll,
    Bool.and_true, Node.legible, Option.getD_some, hopens, Bool.true_and]
  exact Node.legibleAll_iff (Node.everywhere_sound_ofText hcss)

/-- A bracket that closes nothing closes the layer of the orphans when it is in a selector. -/
theorem ofText_render_ofLayer_closed :
    (∀ c ∈ "\x7da\x7b\x7d".toList, isSimple c = true) ∧ "x" ≠ "" ∧
      (∀ c ∈ "x".toList, c.isLower = true) ∧
      Document.ofText ((ofLayer ⟨some "x", (Document.ofText "\x7da\x7b\x7d").nodes⟩).render .pretty) ≠
        ofLayer ⟨some "x", (Document.ofText "\x7da\x7b\x7d").nodes⟩ := by
  have hcss : ∀ c ∈ "\x7da\x7b\x7d".toList, isSimple c = true := List.all_eq_true.1 rfl
  have hne : "x" ≠ "" := by decide
  have hname : ∀ c ∈ "x".toList, c.isLower = true := List.all_eq_true.1 rfl
  have hcloses : (Node.all (Document.ofText "\x7da\x7b\x7d").nodes).all (fun n => !n.closes) = false := by
    decide +kernel
  refine ⟨hcss, hne, hname, fun hread => ?_⟩
  have hall := (ofText_render_ofLayer_iff hcss hne hname).1 hread
  rw [List.all_eq_true.2 hall] at hcloses
  cases hcloses

end Document

end Stylesheet
