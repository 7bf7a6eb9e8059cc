import Stylesheet.Proofs.Everywhere
import Stylesheet.Proofs.SettledReading

/-!
# What a tree that was read is like

`Document.wellFormed_ofText`: whatever the text, each node of the tree that is read from it, at any depth, is
as the later treatments take it to be, and its texts are slices of the text it was read from.

What a node says by itself is that the tree is settled (`Document.settledAll_ofText`).  What is new here
is where its texts come from.  The reader holds a slice of the source at any time (`Pending.text`), and a
component value either goes to the end of it or ends an item, whose texts are cut from it
(`cutFrom_readStep`).
-/

namespace Stylesheet

open Stylesheet.Text (trim trimEnd lower isSpace IsLower Trimmed)

/-- The value of a declaration is a slice of the text behind the colon. -/
theorem Declaration.slice_splitImportance {text value : List Char} {important : Bool}
    (h : splitImportance text = (value, important)) : value <:+: text := by
  have hall := Text.trim_slice text
  rw [splitImportance] at h
  split at h
  · next before after hsplit =>
      split at h
      · cases h
        refine (Text.trimEnd_slice before).trans (.trans ?_ hall)
        rw [Text.splitLast?_eq_some hsplit]
        exact (List.prefix_append before _).isInfix
      · cases h
        exact hall
  · cases h
    exact hall

theorem Declaration.slice_ofText? {text : List Char} {d : Declaration} (h : ofText? text = some d) :
    d.value.toList <:+: text := by
  obtain ⟨before, after, rfl, -, -, -, -, hvalue⟩ := ofText?_eq_some h
  refine (slice_splitImportance hvalue).trans ⟨before ++ [':'], [], ?_⟩
  rw [List.append_nil, List.append_assoc, List.singleton_append]

namespace Node

open Component (tokens tokensOf textOf)

/-! ## Where the texts of a tree come from -/

/-- The texts of a node, other than the names that are known in lower case. -/
def texts : Node → List String
  | .layer name _ => name.toList
  | .media condition _ => [condition]
  | .rule selector _ => [selector]
  | .declaration d => [d.value]
  | .comment text => [text]
  | .statement _ params => [params]
  | .atRule _ params _ => [params]

/-- The texts of some nodes and of everything in them are slices of a source. -/
def CutFrom (source : List Char) (nodes : List Node) : Prop :=
  ∀ node ∈ all nodes, ∀ text ∈ node.texts, text.toList <:+: source

variable {source : List Char} {nodes : List Node}

theorem cutFrom_nil : CutFrom source [] := fun _ hnode => absurd hnode List.not_mem_nil

theorem CutFrom.append {a b : List Node} (ha : CutFrom source a) (hb : CutFrom source b) :
    CutFrom source (a ++ b) := by
  intro node hnode
  rw [all_eq_flatMap, List.flatMap_append, ← all_eq_flatMap, ← all_eq_flatMap] at hnode
  rcases List.mem_append.1 hnode with hnode | hnode
  · exact ha node hnode
  · exact hb node hnode

theorem CutFrom.mono {larger : List Char} (h : CutFrom source nodes) (hlarger : source <:+: larger) :
    CutFrom larger nodes := by
  intro node hnode text htext
  exact (h node hnode text htext).trans hlarger

theorem cutFrom_singleton {node : Node} (htexts : ∀ text ∈ node.texts, text.toList <:+: source)
    (hblock : CutFrom source node.block) : CutFrom source [node] := by
  intro n hn
  rw [all_eq_flatMap, List.flatMap_singleton, allAt_eq] at hn
  rcases List.mem_cons.1 hn with rfl | hn
  · exact htexts
  · exact hblock n hn

/-- A text that is a slice when it is trimmed. -/
theorem forall_slice_trim {text : List Char} (h : text <:+: source) :
    ∀ s ∈ [String.ofList (trim text)], s.toList <:+: source := by
  rw [List.forall_mem_singleton, String.toList_ofList]
  exact (Text.trim_slice text).trans h

/-! ## The reader holds a slice -/

/-- What the reader holds of the source. -/
def Pending.text : Pending → List Char
  | .between dropped => dropped
  | .atRule _ params => params
  | .item text => text

theorem Pending.text_extend (p : Pending) (text : List Char) :
    (p.extend text).text = p.text ++ text := by
  cases p with
  | between dropped | atRule name params | item seen => rfl

theorem cutFrom_finish (p : Pending) : CutFrom p.text p.finish := by
  cases p with
  | between dropped => exact cutFrom_nil
  | atRule name params => exact cutFrom_singleton (forall_slice_trim (List.infix_refl params)) cutFrom_nil
  | item text =>
      rw [Pending.finish]
      cases hd : Declaration.ofText? text with
      | none => exact cutFrom_nil
      | some d =>
          refine cutFrom_singleton ?_ cutFrom_nil
          exact List.forall_mem_singleton.2 (Declaration.slice_ofText? hd)

theorem cutFrom_ofAtRule {name : String} {params : List Char} {children : List Node}
    (hparams : params <:+: source) (hchildren : CutFrom source children) :
    CutFrom source [ofAtRule name params children] := by
  have htext := forall_slice_trim hparams
  rw [ofAtRule.eq_def]
  dsimp only
  split
  · refine cutFrom_singleton ?_ hchildren
    split
    · exact fun text htext => absurd htext List.not_mem_nil
    · exact htext
  · exact cutFrom_singleton htext hchildren
  · exact cutFrom_singleton htext hchildren

/-- What a token adds is cut from what the reader holds and the token, and the reader goes on with the end
of it. -/
theorem cutFrom_readToken (p : Pending) {t : Token} (ht : t.Shaped) :
    CutFrom (p.text ++ t.text) (readToken p t).1 ∧ (readToken p t).2.text <:+ p.text ++ t.text := by
  rw [readToken.eq_def]
  split
  · exact ⟨cutFrom_nil, List.nil_suffix⟩
  · exact ⟨cutFrom_nil, List.nil_suffix⟩
  · next dropped body closed hkind =>
      refine ⟨cutFrom_singleton (List.forall_mem_singleton.2 ?_) cutFrom_nil, List.nil_suffix⟩
      rw [Token.Shaped, hkind] at ht
      rw [String.toList_ofList, ht.2]
      exact ⟨dropped ++ ['/', '*'], if closed then ['*', '/'] else [], by simp [Pending.text]⟩
  · exact ⟨cutFrom_nil, List.nil_suffix⟩
  · exact ⟨(cutFrom_finish _).mono (List.prefix_append _ _).isInfix, List.nil_suffix⟩
  · rw [Pending.text_extend]
    exact ⟨cutFrom_nil, List.suffix_refl _⟩

mutual

/-- What a component value adds is cut from what the reader holds and the component value, and the reader
goes on with the end of it. -/
theorem cutFrom_readStep : (c : Component) → (p : Pending) → (∀ t ∈ tokens c, t.Shaped) →
    CutFrom (p.text ++ c.text) (readStep p c).1 ∧ (readStep p c).2.text <:+ p.text ++ c.text
  | .token t, p, ht => by
      rw [readStep, Component.text]
      exact cutFrom_readToken p (ht t (by simp [tokens]))
  | .block bracket opener body closer, p, ht => by
      have hbody : ∀ t ∈ tokensOf body, t.Shaped := by
        intro t hmem
        exact ht t (by simp [tokens, hmem])
      have hchildren := cutFrom_readFrom body (.between []) hbody
      have hinside : textOf body <:+: p.text ++ Component.text (.block bracket opener body closer) :=
        ⟨p.text ++ opener.text, closer.elim [] Token.text, by simp [Component.text]⟩
      have hheld : p.text <:+: p.text ++ Component.text (.block bracket opener body closer) :=
        (List.prefix_append _ _).isInfix
      have htail : textOf body ++ closer.elim [] Token.text <:+
          p.text ++ Component.text (.block bracket opener body closer) :=
        ⟨p.text ++ opener.text, by simp [Component.text]⟩
      rw [readStep.eq_def]
      dsimp only
      split
      · exact ⟨cutFrom_nil, htail⟩
      · exact ⟨cutFrom_ofAtRule hheld (hchildren.mono hinside), List.nil_suffix⟩
      · exact ⟨cutFrom_singleton (forall_slice_trim hheld) (hchildren.mono hinside), List.nil_suffix⟩
      · refine ⟨cutFrom_nil, ?_⟩
        rw [Pending.text_extend, Component.text, List.append_assoc opener.text]
termination_by structural c => c

/-- What is read is cut from what the reader held before and the characters of the component values. -/
theorem cutFrom_readFrom : (cs : List Component) → (p : Pending) → (∀ t ∈ tokensOf cs, t.Shaped) →
    CutFrom (p.text ++ textOf cs) (readFrom p cs)
  | [], p, _ => by
      rw [readFrom, textOf, List.append_nil]
      exact cutFrom_finish p
  | c :: cs, p, ht => by
      obtain ⟨hstep, hheld⟩ := cutFrom_readStep c p fun t hmem => ht t (by simp [hmem])
      have hrest := cutFrom_readFrom cs (readStep p c).2 fun t hmem => ht t (by simp [hmem])
      rw [readFrom, textOf, ← List.append_assoc]
      refine (hstep.mono (List.prefix_append _ _).isInfix).append (hrest.mono ?_)
      exact ((List.suffix_append_self_iff).2 hheld).isInfix
termination_by structural cs => cs

end

end Node

/-- The texts of the tree that is read from a text are slices of it. -/
theorem Document.cutFrom_ofText (css : String) :
    Node.CutFrom css.toList (Document.ofText css).nodes := by
  have hread := Node.cutFrom_readFrom (Component.group (Token.tokenize css.toList)) (.between []) (by
    intro t ht
    rw [Component.tokensOf_group] at ht
    exact Token.shaped_tokenize ht)
  rwa [Component.textOf_group, Token.textOf_tokenize] at hread

namespace Node

/-! ## Settled nodes -/

variable {style : Style} {nodes : List Node}

theorem settledAll_iff : SettledAll style nodes ↔ ∀ node ∈ nodes, Settled style node := by
  induction nodes with
  | nil => simp [SettledAll]
  | cons node nodes ih => rw [SettledAll, ih, List.forall_mem_cons]

theorem Settled.block {node : Node} (h : Settled style node) : SettledAll style node.block := by
  cases node with
  | layer | media | rule | atRule =>
      rw [Settled] at h
      simp only [h, Node.block, children?, Option.getD_some]
  | declaration | comment | statement => exact settledAll_iff.2 fun _ hn => absurd hn List.not_mem_nil

/-- A settled tree is settled at any depth. -/
theorem SettledAll.settled_of_mem (h : SettledAll style nodes) :
    ∀ node ∈ all nodes, Settled style node := by
  have hnode : ∀ node, Settled style node → ∀ n ∈ allAt node, Settled style n := by
    intro node
    induction node using inductionOnBlock with
    | step node ih =>
        intro hsettled n hn
        rw [allAt_eq, all_eq_flatMap] at hn
        rcases List.mem_cons.1 hn with rfl | hn
        · exact hsettled
        · obtain ⟨child, hchild, hn⟩ := List.mem_flatMap.1 hn
          exact ih child hchild (settledAll_iff.1 hsettled.block child hchild) n hn
  intro n hn
  rw [all_eq_flatMap] at hn
  obtain ⟨node, hmem, hn⟩ := List.mem_flatMap.1 hn
  exact hnode node (settledAll_iff.1 h node hmem) n hn

end Node

/-! ## Trees that were read -/

/-- A declaration as it is read from a source. -/
structure Declaration.WellFormed (source : List Char) (d : Declaration) : Prop where
  /-- It has a property. -/
  named : d.property ≠ ""
  /-- The name of the property has no colon and no spaces. -/
  plain : ∀ c ∈ d.property.toList, c ≠ ':' ∧ isSpace c = false
  /-- Only a custom property may have another name in lower case. -/
  cased : Text.startsWith "--" d.property = false → lower d.property.toList = d.property.toList
  /-- The value is trimmed. -/
  trimmed : Trimmed d.value.toList
  /-- The value is a slice of the source. -/
  slice : d.value.toList <:+: source
  /-- If the declaration is not marked, its value does not end with a mark. -/
  unmarked : d.important = false → ∀ before after, d.value.toList = before ++ '!' :: after →
    '!' ∉ after → lower (trim after) ≠ "important".toList

/-- A text that was cut from a source and trimmed. -/
def IsTrimmedSlice (source : List Char) (text : String) : Prop :=
  Trimmed text.toList ∧ text.toList <:+: source

/-- A node as it is read from a source, without what is in its block. -/
def Node.WellFormed (source : List Char) : Node → Prop
  | .layer name _ => ∀ text, name = some text → text ≠ "" ∧ IsTrimmedSlice source text
  | .media condition _ => IsTrimmedSlice source condition
  | .rule selector _ => IsTrimmedSlice source selector
  | .declaration d => d.WellFormed source
  | .comment text => ¬"*/".toList <:+: text.toList ∧ text.toList <:+: source
  | .statement name params => IsLower name.toList ∧ IsTrimmedSlice source params
  | .atRule name params _ =>
      name ≠ "layer" ∧ name ≠ "media" ∧ IsLower name.toList ∧ IsTrimmedSlice source params

/-- A normal declaration is well formed in any source of its value. -/
theorem Declaration.Normal.wellFormed {source : List Char} {d : Declaration} (h : d.Normal)
    (hslice : d.value.toList <:+: source) : d.WellFormed source := by
  refine ⟨?_, h.plain, ?_, h.trimmed, hslice, ?_⟩
  · intro hname
    refine h.named ?_
    rw [hname]
    rfl
  · intro hcustom
    have hcased := h.cased
    rw [propertyName] at hcased
    split at hcased
    · next hmark => exact absurd (hcustom.symm.trans hmark) Bool.false_ne_true
    · exact hcased
  · intro hplain before after hvalue hafter hword
    have hunmarked := h.unmarked hplain
    rw [splitImportance, Text.trim_eq_self_iff.2 h.trimmed, hvalue, Text.splitLast?_append hafter]
      at hunmarked
    have hsame : Text.sameIgnoringCase (trim after) "important".toList = true := beq_iff_eq.2 hword
    simp only [hsame, if_true] at hunmarked
    exact Bool.false_ne_true (congrArg Prod.snd hunmarked).symm

theorem Node.isLower_of_atSettled {style : Style} {name params : String}
    (h : AtSettled style name params) : IsLower name.toList := by
  rw [← h.1]
  exact Text.isLower_lower _

/-- A settled node is well formed in any source of its texts. -/
theorem Node.Settled.wellFormed {style : Style} {source : List Char} {node : Node}
    (h : Settled style node) (htexts : ∀ text ∈ node.texts, text.toList <:+: source) :
    node.WellFormed source := by
  cases node with
  | layer name children =>
      rw [Settled] at h
      rintro text rfl
      have htrimmed : Trimmed text.toList := h.2.1.2.1
      refine ⟨?_, htrimmed, htexts text (List.mem_singleton.2 rfl)⟩
      rintro rfl
      exact h.1 rfl
  | media condition children =>
      rw [Settled] at h
      exact ⟨h.1.2.1, htexts _ (List.mem_singleton.2 rfl)⟩
  | rule selector children =>
      rw [Settled] at h
      exact ⟨h.1, htexts _ (List.mem_singleton.2 rfl)⟩
  | declaration d =>
      rw [Settled] at h
      exact (Declaration.normal_of_ofText? h).wellFormed (htexts _ (List.mem_singleton.2 rfl))
  | comment text =>
      rw [Settled] at h
      exact ⟨Text.occurs_eq_false_iff.1 h, htexts _ (List.mem_singleton.2 rfl)⟩
  | statement name params =>
      rw [Settled] at h
      exact ⟨isLower_of_atSettled h, h.2.1, htexts _ (List.mem_singleton.2 rfl)⟩
  | atRule name params children =>
      rw [Settled] at h
      obtain ⟨hlayer, hmedia, hat, -⟩ := h
      exact ⟨hlayer, hmedia, isLower_of_atSettled hat, hat.2.1, htexts _ (List.mem_singleton.2 rfl)⟩

/-- Every node of the tree that is read from a text, at any depth, is well formed in that text. -/
theorem Document.wellFormed_ofText (css : String) :
    ∀ node ∈ Node.all (Document.ofText css).nodes, node.WellFormed css.toList := by
  intro node hnode
  exact ((settledAll_ofText css).settled_of_mem node hnode).wellFormed
    (cutFrom_ofText css node hnode)

/-- A declaration in a layer whose value has an exclamation mark that marks nothing. -/
theorem Document.wellFormed_ofText_declaration :
    Node.WellFormed "@LAYER a\x7bB\x7bTop: 0 !x !important ! y\x7d\x7d".toList
      (.declaration ⟨"top", "0 !x !important ! y", false⟩) := by
  refine wellFormed_ofText _ _ ?_
  have hread : (Document.ofText "@LAYER a\x7bB\x7bTop: 0 !x !important ! y\x7d\x7d").nodes =
      [.layer (some "a") [.rule "B" [.declaration ⟨"top", "0 !x !important ! y", false⟩]]] := by
    decide +kernel
  rw [hread]
  simp [Node.all, Node.allAt]

end Stylesheet
