import Stylesheet.Node.Printer
import Stylesheet.Node.Reader
import Stylesheet.Proofs.Edge
import Stylesheet.Proofs.Grouping

/-!
# Legible heads

The *head* of an item is what stands before its semicolon or its `{}` block: a selector, an at-keyword
with its parameters, a whole declaration.  A printed head is *legible* when the reader takes it for
one head again.  That needs three things.

* Its first component value starts an item of the right sort: it is the at-keyword, or it is none of
  the things that the reader treats on their own between two items.
* No component value in it ends the item, or the block in which the item stands.
* The semicolon or bracket written after it is a component value of its own, so nothing in the head
  is left open and swallows it.

`legible` asks this of every head in a tree.  It is a test that can be run on the printed heads one
by one; nothing is said about how they are put together.
-/

namespace Stylesheet

/-! ## Brackets and semicolons -/

namespace Token

/-- The semicolon. -/
def semicolon : Token := ⟨.semicolon, [';']⟩

/-- The bracket that opens a `{}` block. -/
def openCurly : Token := ⟨.opening .curly, ['\x7b']⟩

/-- The bracket that closes a `{}` block. -/
def closeCurly : Token := ⟨.closing .curly, ['\x7d']⟩

theorem tokenize_semicolon (cs : List Char) : tokenize (';' :: cs) = semicolon :: tokenize cs := by
  rw [tokenize_cons]
  rfl

theorem tokenize_openCurly (cs : List Char) :
    tokenize ('\x7b' :: cs) = openCurly :: tokenize cs := by
  rw [tokenize_cons]
  rfl

theorem tokenize_closeCurly (cs : List Char) :
    tokenize ('\x7d' :: cs) = closeCurly :: tokenize cs := by
  rw [tokenize_cons]
  rfl

/-- A run of blanks that is not continued is one token. -/
theorem tokenize_blanks {b rest : List Char} (hb : b ≠ []) (hblank : ∀ c ∈ b, isBlank c = true)
    (hrest : Text.headIs isBlank rest = false) :
    tokenize (b ++ rest) = ⟨.blank, b⟩ :: tokenize rest := by
  cases b with
  | nil => exact absurd rfl hb
  | cons c b =>
      have hc : isBlank c = true := hblank c List.mem_cons_self
      have hrun : (b ++ rest).takeWhile isBlank = b := by
        rw [List.takeWhile_append_of_pos fun d hd => hblank d (List.mem_cons_of_mem c hd)]
        cases rest with
        | nil => simp
        | cons d ds => simp_all [Text.headIs]
      have hscan : scan c (b ++ rest) = (.blank, 1 + b.length) := by
        rw [scan.eq_def, if_pos hc, hrun]
      rw [List.cons_append, tokenize_cons, hscan]
      simp

theorem commentBody_closed {body : List Char} (h : Text.occurs ['*', '/'] body = false)
    (rest : List Char) : commentBody (body ++ '*' :: '/' :: rest) = (body, true) := by
  induction body with
  | nil => rfl
  | cons c cs ih =>
      rw [Text.occurs, Bool.or_eq_false_iff] at h
      have hne : ∀ r, c = '*' → cs ++ '*' :: '/' :: rest = '/' :: r → False := by
        intro r hc hcs
        subst hc
        cases cs with
        | nil => simp at hcs
        | cons d ds =>
            rw [List.cons_append, List.cons.injEq] at hcs
            rw [hcs.1] at h
            simp [List.isPrefixOf] at h
      rw [List.cons_append, commentBody, ih h.2]
      exact hne

/-- A comment is one token, whatever follows. -/
theorem tokenize_comment {body : List Char} (h : Text.occurs ['*', '/'] body = false)
    (rest : List Char) :
    tokenize (['/', '*'] ++ body ++ ['*', '/'] ++ rest) =
      ⟨.comment body true, ['/', '*'] ++ body ++ ['*', '/']⟩ :: tokenize rest := by
  have hscan : scan '/' ('*' :: (body ++ '*' :: '/' :: rest)) =
      (.comment body true, 2 + (body.length + 2)) := by
    rw [scan.eq_def]
    simp [isBlank, isNewline, Text.headIs, scanComment, commentBody_closed h]
  have htext : ['/', '*'] ++ body ++ ['*', '/'] ++ rest =
      '/' :: '*' :: (body ++ '*' :: '/' :: rest) := by simp
  have hlength : 2 + (body.length + 2) - 1 = body.length + 3 := by omega
  have hbody : body.length ≤ body.length + 2 := by omega
  rw [htext, tokenize_cons, hscan, hlength]
  simp [List.take_append, List.drop_append, List.take_of_length_le hbody,
    List.drop_of_length_le hbody]

/-- The first character of a text whose first token is not a run of blanks is no blank. -/
theorem isBlank_eq_false_of_kind {c : Char} {cs : List Char} {t : Token} {ts : List Token}
    (h : tokenize (c :: cs) = t :: ts) (ht : t.kind ≠ .blank) : isBlank c = false := by
  cases hc : isBlank c with
  | false => rfl
  | true =>
      rw [tokenize_cons, List.cons.injEq] at h
      refine absurd ?_ ht
      rw [← h.1, scan.eq_def, if_pos hc]

end Token

namespace Component

/-! ## Component values in a head -/

/-- Does a component value stay inside a head?  A stray `}` does so only outside all blocks. -/
def isInner (nested : Bool) : Component → Bool
  | .token t =>
      match t.kind with
      | .semicolon => false
      | .closing .curly => !nested
      | _ => true
  | .block .curly _ _ _ => false
  | .block _ _ _ _ => true

/-- Does a component value start a rule or a declaration? -/
def startsItem : Component → Bool
  | .token t =>
      match t.kind with
      | .blank => false
      | .legacyMark => false
      | .comment _ _ => false
      | .atKeyword _ => false
      | _ => true
  | .block _ _ _ _ => true

/-- Is a component value the at-keyword of this name, written without escapes? -/
def isKeyword (name : String) : Component → Bool
  | .token t => t == ⟨.atKeyword name.toList, '@' :: name.toList⟩
  | .block _ _ _ _ => false

/-- Is a component value a semicolon? -/
def isSemicolon : Component → Bool
  | .token t => t == Token.semicolon
  | .block _ _ _ _ => false

/-- Is a component value a `{}` block of which only the opening bracket is there? -/
def isOpenCurly : Component → Bool
  | .block .curly opener [] none => opener == Token.openCurly
  | _ => false

/-- Do some component values make a head of a sort, followed by what ends it? -/
def areHead (nested : Bool) (start stop : Component → Bool) (cs : List Component) : Bool :=
  cs.dropLast.all (isInner nested) && cs.dropLast.head?.any start && cs.getLast?.any stop

/-- Is a text a head of a sort, followed by the character that ends it? -/
def isHead (nested : Bool) (start stop : Component → Bool) (text : List Char) : Bool :=
  areHead nested start stop (group (Token.tokenize text))

theorem areHead_iff {nested : Bool} {start stop : Component → Bool} {cs : List Component} :
    areHead nested start stop cs = true ↔
      ∃ c inner last, cs = c :: inner ++ [last] ∧ start c = true ∧ stop last = true ∧
        ∀ d ∈ c :: inner, isInner nested d = true := by
  constructor
  · intro h
    rw [areHead, Bool.and_eq_true, Bool.and_eq_true] at h
    obtain ⟨⟨hinner, hstart⟩, hstop⟩ := h
    cases hd : cs.dropLast with
    | nil => simp [hd] at hstart
    | cons c inner =>
        have hne : cs ≠ [] := by
          intro hnil
          simp [hnil] at hd
        rw [List.getLast?_eq_some_getLast hne] at hstop
        rw [hd] at hstart hinner
        refine ⟨c, inner, cs.getLast hne, ?_, hstart, hstop, List.all_eq_true.1 hinner⟩
        rw [← hd, List.dropLast_concat_getLast hne]
  · rintro ⟨c, inner, last, rfl, hstart, hstop, hinner⟩
    rw [areHead, List.dropLast_concat, List.getLast?_concat]
    simp only [List.head?_cons, Option.any_some, hstart, hstop, Bool.and_true]
    exact List.all_eq_true.2 hinner

/-! ## Texts that give component values -/

/-- The block around an item: a `{}` block, or none. -/
def around (nested : Bool) : Option Bracket := if nested then some .curly else none

/-- In front of every rest of some sort, the text gives these component values. -/
def Gives (nested : Bool) (text : List Char) (rests : List Char → Prop) (cs : List Component) : Prop :=
  AllClosed (around nested) cs ∧
    ∀ rest, rests rest → Token.tokenize (text ++ rest) = tokensOf cs ++ Token.tokenize rest

theorem Gives.append {nested : Bool} {a b : List Char} {ra rb : List Char → Prop}
    {ca cb : List Component} (ha : Gives nested a ra ca) (hb : Gives nested b rb cb)
    (hrests : ∀ rest, rb rest → ra (b ++ rest)) : Gives nested (a ++ b) rb (ca ++ cb) := by
  refine ⟨ha.1.append hb.1, ?_⟩
  intro rest hrest
  rw [List.append_assoc, ha.2 _ (hrests rest hrest), hb.2 rest hrest, tokensOf_append,
    List.append_assoc]

theorem gives_nil (nested : Bool) (rests : List Char → Prop) : Gives nested [] rests [] := by
  refine ⟨by simp [AllClosed], ?_⟩
  intro rest _
  simp

theorem gives_semicolon (nested : Bool) :
    Gives nested [';'] (fun _ => True) [.token Token.semicolon] := by
  refine ⟨by simp [AllClosed, Closed, Token.semicolon, staysToken], ?_⟩
  intro rest _
  rw [List.singleton_append, Token.tokenize_semicolon]
  simp [tokens]

/-- The component values of a run of blanks. -/
def blanks (b : List Char) : List Component := if b = [] then [] else [.token ⟨.blank, b⟩]

theorem gives_blanks (nested : Bool) {b : List Char} (hb : ∀ c ∈ b, Token.isBlank c = true) :
    Gives nested b (fun rest => Text.headIs Token.isBlank rest = false) (blanks b) := by
  by_cases hnil : b = []
  · rw [blanks, if_pos hnil, hnil]
    exact gives_nil nested _
  · rw [blanks, if_neg hnil]
    refine ⟨by simp [AllClosed, Closed, staysToken], ?_⟩
    intro rest hrest
    rw [Token.tokenize_blanks hnil hb hrest]
    simp [tokens]

theorem gives_comment (nested : Bool) {body : List Char}
    (h : Text.occurs ['*', '/'] body = false) :
    Gives nested (['/', '*'] ++ body ++ ['*', '/']) (fun _ => True)
      [.token ⟨.comment body true, ['/', '*'] ++ body ++ ['*', '/']⟩] := by
  refine ⟨by simp [AllClosed, Closed, staysToken], ?_⟩
  intro rest _
  rw [Token.tokenize_comment h]
  simp [tokens]

/-- A text in brackets gives a block of what it gives by itself. -/
theorem Gives.block {body : List Char} {rests : List Char → Prop} {cs : List Component}
    (h : Gives true body rests cs) (hrests : ∀ rest, rests ('\x7d' :: rest)) (nested : Bool) :
    Gives nested ('\x7b' :: body ++ ['\x7d']) (fun _ => True)
      [.block .curly Token.openCurly cs (some Token.closeCurly)] := by
  refine ⟨?_, ?_⟩
  · simp only [AllClosed, Closed, and_true]
    exact ⟨rfl, ⟨Token.closeCurly, rfl, rfl⟩, h.1⟩
  · intro rest _
    rw [List.cons_append, List.cons_append, List.append_assoc, List.singleton_append,
      Token.tokenize_openCurly, h.2 _ (hrests rest), Token.tokenize_closeCurly]
    simp [tokens]

/-- What stays inside a head is not touched by the block around it. -/
theorem Closed.of_isInner {nested : Bool} {c : Component} (h : Closed none c)
    (hinner : isInner nested c = true) : Closed (around nested) c := by
  cases c with
  | block b opener body closer =>
      rw [Closed] at h ⊢
      exact h
  | token t =>
      rw [Closed] at h ⊢
      cases nested with
      | false => exact h
      | true =>
          cases hk : t.kind with
          | closing b =>
              cases b with
              | curly => simp [isInner, hk] at hinner
              | paren => simp [staysToken, around]
              | square => simp [staysToken, around]
          | _ => simp_all [staysToken]

/-- A legible head gives component values that stay inside it, before every edge. -/
theorem gives_of_isHead {nested : Bool} {start stop : Component → Bool} {x : List Char} {e : Char}
    (he : Token.isEdge e = true) (hstop : ∀ c, stop c = true → ∃ t, tokens c = [t] ∧ t.text = [e])
    (h : isHead nested start stop (x ++ [e]) = true) :
    ∃ c cs, Gives nested x Token.EdgeRest (c :: cs) ∧ textOf (c :: cs) = x ∧ start c = true ∧
      ∀ d ∈ c :: cs, isInner nested d = true := by
  rw [isHead, areHead_iff] at h
  obtain ⟨c, cs, last, hgroup, hstart, hlast, hinner⟩ := h
  obtain ⟨t, ht, htext⟩ := hstop last hlast
  have hgrouped := group_grouped (Token.tokenize (x ++ [e]))
  rw [hgroup] at hgrouped
  have hclosed := (hgrouped.closed_of_append (by simp)).1
  have htokens : Token.tokenize (x ++ [e]) = tokensOf (c :: cs) ++ [t] := by
    have hstopTokens : tokensOf [last] = [t] := by simp [ht]
    rw [← tokensOf_group (Token.tokenize (x ++ [e])), hgroup, tokensOf_append, hstopTokens]
  have hx : Token.textOf (tokensOf (c :: cs)) = x := by
    have hall := Token.textOf_tokenize (x ++ [e])
    rw [htokens, Token.textOf_append, Token.textOf_cons, htext, Token.textOf_nil,
      List.append_nil] at hall
    exact List.append_cancel_right hall
  refine ⟨c, cs, ⟨?_, ?_⟩, ?_, hstart, hinner⟩
  · rw [allClosed_iff] at hclosed ⊢
    exact fun d hd => (hclosed d hd).of_isInner (hinner d hd)
  · intro rest hrest
    exact Token.tokenize_append_of_edge he htokens hx hrest
  · rw [← textOf_tokensOf, hx]

theorem tokens_of_isSemicolon (c : Component) (h : isSemicolon c = true) :
    ∃ t, tokens c = [t] ∧ t.text = [';'] := by
  cases c with
  | token t =>
      rw [isSemicolon, beq_iff_eq] at h
      exact ⟨t, by rw [tokens], by rw [h]; rfl⟩
  | block b opener body closer => exact absurd h (by simp [isSemicolon])

theorem tokens_of_isOpenCurly (c : Component) (h : isOpenCurly c = true) :
    ∃ t, tokens c = [t] ∧ t.text = ['\x7b'] := by
  rw [isOpenCurly.eq_def] at h
  split at h
  · next opener =>
      rw [beq_iff_eq] at h
      exact ⟨opener, by simp [tokens], by rw [h]; rfl⟩
  · exact absurd h (by decide)

/-- The first token of a component value that can start a head is no run of blanks. -/
theorem exists_first {around : Option Bracket} {c : Component} (h : Closed around c ∨ CutOff c)
    (hc : startsItem c = true ∨ ∃ name, isKeyword name c = true) :
    ∃ t ts, tokens c = t :: ts ∧ t.kind ≠ .blank := by
  cases c with
  | block b opener body closer =>
      refine ⟨opener, tokensOf body ++ closer.toList, by simp [tokens], ?_⟩
      simp [kind_opener h]
  | token t =>
      refine ⟨t, [], by rw [tokens], ?_⟩
      intro hk
      rcases hc with hstart | ⟨name, hname⟩
      · simp [startsItem, hk] at hstart
      · rw [isKeyword, beq_iff_eq] at hname
        rw [hname] at hk
        exact absurd hk (by simp)

/-- The first character of a head is no blank. -/
theorem Gives.head_not_blank {nested : Bool} {x : List Char} {c : Component} {cs : List Component}
    (h : Gives nested x Token.EdgeRest (c :: cs))
    (hc : startsItem c = true ∨ ∃ name, isKeyword name c = true) (rest : List Char) :
    Text.headIs Token.isBlank (x ++ rest) = false := by
  have hclosed := allClosed_iff.1 h.1 c List.mem_cons_self
  obtain ⟨t, ts, hc, hkind⟩ := exists_first (.inl hclosed) hc
  have htokens := h.2 [] .nil
  rw [List.append_nil, tokensOf_cons, hc, List.cons_append, List.cons_append] at htokens
  cases x with
  | nil => exact absurd htokens (by simp)
  | cons a x => exact Token.isBlank_eq_false_of_kind htokens hkind

end Component

namespace Node

/-! ## Reading heads -/

open Component (isInner startsItem isKeyword textOf)

/-- Has an item been started? -/
def Pending.isStarted : Pending → Bool
  | .between _ => false
  | .atRule _ _ => true
  | .item _ => true

theorem Pending.isStarted_extend (p : Pending) (text : List Char) :
    (p.extend text).isStarted = true := by
  cases p <;> rfl

theorem Pending.extend_extend {p : Pending} (hp : p.isStarted = true) (a b : List Char) :
    (p.extend a).extend b = p.extend (a ++ b) := by
  cases p with
  | between dropped => simp [Pending.isStarted] at hp
  | atRule name params => simp [Pending.extend]
  | item seen => simp [Pending.extend]

/-- A started item goes on with what stays inside a head. -/
theorem readStep_of_isInner {p : Pending} (hp : p.isStarted = true) {nested : Bool} {c : Component}
    (hc : isInner nested c = true) : readStep p c = ([], p.extend c.text) := by
  cases c with
  | token t =>
      rw [readStep, readToken.eq_def]
      cases p with
      | between dropped => simp [Pending.isStarted] at hp
      | atRule name params => cases hk : t.kind <;> simp_all [isInner, Component.text]
      | item seen => cases hk : t.kind <;> simp_all [isInner, Component.text]
  | block b opener body closer =>
      cases b with
      | curly => exact absurd hc (by simp [isInner])
      | paren => cases p <;> simp_all [readStep, Component.text, Pending.isStarted]
      | square => cases p <;> simp_all [readStep, Component.text, Pending.isStarted]

theorem readFrom_of_isInner {p : Pending} (hp : p.isStarted = true) {nested : Bool}
    {cs : List Component} (hcs : ∀ c ∈ cs, isInner nested c = true) (rest : List Component) :
    readFrom p (cs ++ rest) = readFrom (p.extend (textOf cs)) rest := by
  induction cs generalizing p with
  | nil =>
      have hnil : p.extend [] = p := by
        cases p with
        | between dropped => simp [Pending.isStarted] at hp
        | atRule name params => simp [Pending.extend]
        | item seen => simp [Pending.extend]
      rw [List.nil_append, textOf, hnil]
  | cons c cs ih =>
      have hc := hcs c List.mem_cons_self
      have hcs' : ∀ d ∈ cs, isInner nested d = true := fun d hd => hcs d (List.mem_cons_of_mem c hd)
      rw [List.cons_append, readFrom, readStep_of_isInner hp hc, textOf]
      dsimp only
      rw [List.nil_append, ih (p.isStarted_extend _) hcs', Pending.extend_extend hp]

/-- The head of a rule or declaration is read as the text of an item, behind the rest of a dropped block
if one ended just before it. -/
theorem readFrom_item_dropped {nested : Bool} {c : Component} {cs : List Component}
    (dropped : List Char) (hstart : startsItem c = true)
    (hinner : ∀ d ∈ c :: cs, isInner nested d = true) (rest : List Component) :
    readFrom (.between dropped) (c :: cs ++ rest) =
      readFrom (.item (dropped ++ textOf (c :: cs))) rest := by
  have hc := hinner c List.mem_cons_self
  have hstep : readStep (.between dropped) c = ([], .item (dropped ++ c.text)) := by
    cases c with
    | token t =>
        rw [readStep, readToken.eq_def]
        cases hk : t.kind <;> simp_all [isInner, startsItem, Component.text, Pending.extend]
    | block b opener body closer =>
        cases b with
        | curly => exact absurd hc (by simp [isInner])
        | paren => simp [readStep, Component.text, Pending.extend]
        | square => simp [readStep, Component.text, Pending.extend]
  rw [List.cons_append, readFrom, hstep]
  dsimp only
  rw [List.nil_append,
    readFrom_of_isInner rfl fun d hd => hinner d (List.mem_cons_of_mem c hd), textOf, Pending.extend,
    List.append_assoc]

/-- The head of a rule or declaration is read as the text of an item. -/
theorem readFrom_item {nested : Bool} {c : Component} {cs : List Component}
    (hstart : startsItem c = true) (hinner : ∀ d ∈ c :: cs, isInner nested d = true)
    (rest : List Component) :
    readFrom (.between []) (c :: cs ++ rest) = readFrom (.item (textOf (c :: cs))) rest :=
  readFrom_item_dropped [] hstart hinner rest

/-- The head of an at-rule is read as its name and its parameters. -/
theorem readFrom_atKeyword {nested : Bool} {t : Token} {name : List Char} {cs : List Component}
    (ht : t.kind = .atKeyword name) (hinner : ∀ d ∈ cs, isInner nested d = true)
    (rest : List Component) :
    readFrom (.between []) (.token t :: cs ++ rest) =
      readFrom (.atRule (.ofList (Text.lower name)) (textOf cs)) rest := by
  have hstep : readStep (.between []) (.token t) =
      ([], .atRule (.ofList (Text.lower name)) []) := by
    rw [readStep, readToken.eq_def, ht]
  rw [List.cons_append, readFrom, hstep]
  dsimp only
  rw [List.nil_append, readFrom_of_isInner rfl hinner, Pending.extend, List.nil_append]

theorem readFrom_keyword {nested : Bool} {name : String} {c : Component} {cs : List Component}
    (hname : Text.lower name.toList = name.toList) (hstart : isKeyword name c = true)
    (hinner : ∀ d ∈ c :: cs, isInner nested d = true) (rest : List Component) :
    readFrom (.between []) (c :: cs ++ rest) = readFrom (.atRule name (textOf cs)) rest := by
  cases c with
  | block b opener body closer => exact absurd hstart (by simp [isKeyword])
  | token t =>
      rw [isKeyword, beq_iff_eq] at hstart
      rw [readFrom_atKeyword (by rw [hstart]) fun d hd => hinner d (List.mem_cons_of_mem _ hd), hname,
        String.ofList_toList]

/-! ## Legible trees -/

/-- What a style writes between a head and the bracket that opens its block. -/
def gapBeforeBlock : Style → List Char
  | .pretty => [' ']
  | .minified => []

/-- Is a head with a block legible as a style writes it? -/
def opensBlock (style : Style) (nested : Bool) (start : Component → Bool) (head : List Char) : Bool :=
  Component.isHead nested start Component.isOpenCurly
    (headText style head ++ gapBeforeBlock style ++ ['\x7b'])

/-- Is a head that ends with a semicolon legible? -/
def endsItem (nested : Bool) (start : Component → Bool) (head : List Char) : Bool :=
  Component.isHead nested start Component.isSemicolon (head ++ [';'])

mutual

/-- Are the heads of a node and of everything in it legible as a style writes them?  `nested` says
whether the node stands in a block. -/
def legible (style : Style) (nested : Bool) : Node → Bool
  | .rule selector children =>
      opensBlock style nested startsItem selector.toList && legibleAll style true children
  | .layer name children =>
      opensBlock style nested (isKeyword "layer") (atHead "layer" (name.getD "")) &&
        legibleAll style true children
  | .media condition children =>
      opensBlock style nested (isKeyword "media") (atHead "media" condition) &&
        legibleAll style true children
  | .atRule name params children =>
      opensBlock style nested (isKeyword name) (atHead name params) &&
        legibleAll style true children
  | .declaration d => endsItem nested startsItem (declarationText style d)
  | .statement name params =>
      endsItem nested (isKeyword name) (headText style (atHead name params))
  | .comment _ => true
termination_by structural node => node

/-- Are the heads of some nodes and of everything in them legible? -/
def legibleAll (style : Style) (nested : Bool) : List Node → Bool
  | [] => true
  | n :: ns => legible style nested n && legibleAll style nested ns
termination_by structural nodes => nodes

end

end Node

end Stylesheet
