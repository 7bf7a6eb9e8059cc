import Stylesheet.Proofs.NameSpelling
import Stylesheet.Proofs.PurgeMonotone

/-!
# Names that markup uses are kept

The names in the class attribute or the id of an element are looked up in two different ways.  The
markup is scanned for attributes, and their values are cut into words; the selector is cut into branches,
trimmed, and read with its escapes.  Both ends meet in the same token, a mark with the name after it, for
all names and all spellings of them (`purge_opening`).

Nothing is asked of the names but that they can stand in such a value: they are words without quotes.
What else they hold, brackets or the `>` that ends a tag among it, does not matter, since values are found
without looking for tags.
-/

namespace Stylesheet

open Stylesheet.Selector (Naming Spelling readList)
open Stylesheet.Text (isSpace)

namespace Text

/-- A text that is not empty and has no spaces. -/
def IsWord (cs : List Char) : Prop := cs ≠ [] ∧ ∀ c ∈ cs, isSpace c = false

/-- Words with spaces between them are the words of the text. -/
theorem words_join {ts : List String} (h : ∀ t ∈ ts, IsWord t.toList) :
    words (join " " ts).toList = ts.map String.toList := by
  induction ts with
  | nil => rfl
  | cons t ts ih =>
      obtain ⟨⟨hne, hspace⟩, hts⟩ := List.forall_mem_cons.1 h
      cases ts with
      | nil =>
          rw [join, words, List.splitOnP_eq_singleton hspace,
            List.filter_cons_of_pos (by simpa using hne)]
          rfl
      | cons u ts =>
          have htext : (join " " (t :: u :: ts)).toList =
              t.toList ++ ' ' :: (join " " (u :: ts)).toList := by
            simp [join]
          rw [htext, words, List.splitOnP_append_cons_of_forall_mem hspace ' ' rfl,
            List.filter_cons_of_pos (by simpa using hne), List.map_cons]
          exact congrArg (t.toList :: ·) (ih hts)

end Text

/-! ## Scanning markup -/

/-- The attribute that gives names. -/
def Selector.Naming.attribute : Naming → String
  | cls => "class"
  | id => "id"

namespace Markup

/-- The tag that opens a division with some names. -/
def opening (naming : Naming) (names : List String) : String :=
  "<div " ++ naming.attribute ++ "=\"" ++ Text.join " " names ++ "\">"

/-- A word that may stand in the value of an attribute. -/
structure IsName (name : String) : Prop where
  /-- It is not empty and has no spaces. -/
  isWord : Text.IsWord name.toList
  /-- It has no quotes, which would end the value. -/
  unquoted : ∀ c ∈ name.toList, isQuote c = false
  /-- It has no character that cannot be written as an escape. -/
  writable : ∀ c ∈ name.toList, c.toNat ≠ 0

theorem forall_mem_join {p : Char → Prop} {ts : List String}
    (hts : ∀ t ∈ ts, ∀ c ∈ t.toList, p c) (hspace : p ' ') : ∀ c ∈ (Text.join " " ts).toList, p c := by
  induction ts with
  | nil => simp [Text.join]
  | cons t ts ih =>
      obtain ⟨ht, hts⟩ := List.forall_mem_cons.1 hts
      cases ts with
      | nil => exact ht
      | cons u ts =>
          intro c hc
          rw [Text.join, String.toList_append, String.toList_append, List.mem_append,
            List.mem_append] at hc
          rcases hc with (hc | hc) | hc
          · exact ht c hc
          · rw [List.mem_singleton.1 hc]
            exact hspace
          · exact ih hts c hc

/-- The value of an attribute is found up to its closing quote. -/
theorem valueAfter?_quoted {value rest : List Char} (hne : value ≠ [])
    (hvalue : ∀ c ∈ value, isQuote c = false) :
    valueAfter? ('=' :: '"' :: (value ++ '"' :: rest)) = some (value, rest) := by
  have htake : (value ++ '"' :: rest).takeWhile (fun c => !isQuote c) = value := by
    rw [List.takeWhile_append_of_pos fun c hc => by rw [hvalue c hc]; rfl,
      List.takeWhile_cons_of_neg (by decide), List.append_nil]
  have hfound : (isQuote '"' && !value.isEmpty &&
      decide (value.length < (value ++ '"' :: rest).length)) = true := by
    simp [isQuote, hne]
  have hdrop : (value ++ '"' :: rest).drop (value.length + 1) = rest := by simp
  show (if _ then some (_, _) else none) = _
  rw [htake, if_pos hfound, hdrop]

/-- The names of the attributes in which names are looked for. -/
def attributeNames : Naming → List String
  | .cls => ["class", "classname"]
  | .id => ["id"]

/-- The value of the attribute of an opening tag is the first that is found. -/
theorem valuesFrom_opening (naming : Naming) {names : List String} (hne : names ≠ [])
    (hnames : ∀ name ∈ names, IsName name) :
    ∃ others, valuesFrom ((attributeNames naming).map String.toList) none 0
      (opening naming names).toList = (Text.join " " names).toList :: others := by
  have hvalue : ∀ c ∈ (Text.join " " names).toList, isQuote c = false :=
    forall_mem_join (fun name hname => (hnames name hname).unquoted) rfl
  have hfilled : (Text.join " " names).toList ≠ [] := by
    intro hnil
    have hwords := Text.words_join fun name hname => (hnames name hname).isWord
    rw [hnil] at hwords
    exact hne (List.map_eq_nil_iff.1 hwords.symm)
  have htext : (opening naming names).toList =
      "<div ".toList ++ (naming.attribute.toList ++
        '=' :: '"' :: ((Text.join " " names).toList ++ '"' :: ['>'])) := by
    simp [opening]
  rw [htext]
  generalize (Text.join " " names).toList = value at hvalue hfilled ⊢
  have hafter : valueAfter? ('=' :: '"' :: (value ++ '"' :: ['>'])) = some (value, ['>']) :=
    valueAfter?_quoted hfilled hvalue
  generalize '=' :: '"' :: (value ++ '"' :: ['>']) = rest at hafter ⊢
  have hskip : valuesFrom ((attributeNames naming).map String.toList) none 0
      ("<div ".toList ++ (naming.attribute.toList ++ rest)) =
        valuesFrom ((attributeNames naming).map String.toList) (some ' ') 0
          (naming.attribute.toList ++ rest) := by
    cases naming with
    | cls => rfl
    | id => rfl
  have hname : afterName? naming.attribute.toList (naming.attribute.toList ++ rest) = some rest := by
    cases naming with
    | cls => rfl
    | id => rfl
  obtain ⟨others, hothers⟩ : ∃ others, attributeNames naming = naming.attribute :: others := by
    cases naming with
    | cls => exact ⟨_, rfl⟩
    | id => exact ⟨_, rfl⟩
  have hat : attributeAt? ((attributeNames naming).map String.toList)
      (naming.attribute.toList ++ rest) = some (value, ['>']) := by
    rw [hothers, attributeAt?, List.map_cons, List.findSome?_cons, hname, Option.bind_eq_bind,
      Option.bind_some, hafter]
  rw [hskip]
  obtain ⟨c, cs, hcs⟩ : ∃ c cs, naming.attribute.toList = c :: cs := by
    cases naming with
    | cls => exact ⟨_, _, rfl⟩
    | id => exact ⟨_, _, rfl⟩
  rw [hcs, List.cons_append] at hat ⊢
  rw [valuesFrom, if_neg (by decide +kernel), hat]
  exact ⟨_, rfl⟩

/-- The names of an opening tag are found with their marks. -/
theorem mem_names_opening (naming : Naming) {names : List String}
    (hnames : ∀ name ∈ names, IsName name) {name : String} (hname : name ∈ names) :
    naming.selector name.toList ∈ Source.names (opening naming names) := by
  have hwords : ∀ mark, String.ofList (mark :: name.toList) ∈
      attributeWords (attributeNames naming) mark (opening naming names) := by
    intro mark
    obtain ⟨others, hvalues⟩ := valuesFrom_opening naming (List.ne_nil_of_mem hname) hnames
    rw [attributeWords, Text.mem_sortedSet, hvalues, List.flatMap_cons,
      Text.words_join fun name hname => (hnames name hname).isWord]
    exact List.mem_map_of_mem (List.mem_append_left _ (List.mem_map_of_mem hname))
  rw [Source.names, List.mem_append, List.mem_append]
  cases naming with
  | cls => exact .inr (hwords '.')
  | id => exact .inl (.inr (hwords '#'))

end Markup

/-! ## Purging -/

/-- A name that markup uses is accepted. -/
theorem AllowList.accepts_of_mem_names [Pattern.Engine] {text token : String}
    (h : token ∈ Source.names text) (safelist : List Source.SafelistEntry) :
    (Source.allowList text safelist).accepts token = true := by
  rw [Source.allowList, ofMatchers, accepts_extend, Bool.or_eq_true]
  refine .inr (List.any_eq_true.2 ⟨.literal token, ?_, beq_self_eq_true token⟩)
  exact List.mem_append_left _ (List.mem_map_of_mem h)

namespace Purge

theorem nodes_purge_append (allow : AllowList) (a b : List Node) :
    (purge allow (a ++ b)).nodes = (purge allow a).nodes ++ (purge allow b).nodes := by
  induction a with
  | nil => rw [List.nil_append, purge_nil, List.nil_append]
  | cons n ns ih => rw [List.cons_append, nodes_purge_cons, ih, nodes_purge_cons, List.append_assoc]

theorem branchAllowed_part (naming : Naming) (allow : AllowList) (text name : String) :
    branchAllowed allow ⟨text, [naming.part name]⟩ =
      allow.accepts (naming.selector name.toList) := by
  have hselector : ∀ mark : Char,
      String.ofList (mark :: name.toList) = String.ofList [mark] ++ name := by
    intro mark
    rw [← String.toList_inj]
    simp
  rw [Naming.selector, hselector]
  cases naming with
  | cls | id =>
      rw [Naming.part, branchAllowed, verdict, verdict, verdictAt]
      rfl

/-- A class or an id that markup uses is kept, however it is spelled: its selector has no other branch,
nothing is dropped from it, and the rule stays wherever it stands. -/
theorem purge_opening [Pattern.Engine] (naming : Naming) (names : List String)
    (hnames : ∀ name ∈ names, Markup.IsName name) (name : String) (hname : name ∈ names)
    (spelled : List Char) (hspelled : Spelling name.toList spelled)
    (safelist : List Source.SafelistEntry) :
    readList (naming.selector spelled) =
        .ok [⟨Text.strip (naming.selector spelled), [naming.part name]⟩] ∧
      outcome (Source.allowList (Markup.opening naming names) safelist) (naming.selector spelled) =
        .kept (Text.strip (naming.selector spelled)) 0 ∧
      ∀ before children after : List Node,
        (purge (Source.allowList (Markup.opening naming names) safelist)
          (before ++ .rule (naming.selector spelled) children :: after)).nodes =
        (purge (Source.allowList (Markup.opening naming names) safelist) before).nodes ++
          .rule (Text.strip (naming.selector spelled))
            (purge (Source.allowList (Markup.opening naming names) safelist) children).nodes ::
          (purge (Source.allowList (Markup.opening naming names) safelist) after).nodes := by
  have hword := hnames name hname
  have hread : readList (naming.selector spelled) =
      .ok [⟨Text.strip (naming.selector spelled), [naming.part name]⟩] := by
    have h := naming.readList_spelled hspelled hword.isWord.1 fun c hc =>
      ⟨hword.isWord.2 c hc, hword.writable c hc⟩
    rwa [String.ofList_toList] at h
  generalize hallow : Source.allowList (Markup.opening naming names) safelist = allow
  have hkept : outcome allow (naming.selector spelled) =
      .kept (Text.strip (naming.selector spelled)) 0 := by
    have haccepts : allow.accepts (naming.selector name.toList) = true := by
      rw [← hallow]
      exact AllowList.accepts_of_mem_names (Markup.mem_names_opening naming hnames hname) safelist
    have hblank : Text.blank (naming.selector spelled) = false := by
      rw [Text.blank, Naming.selector, String.toList_ofList]
      cases naming with
      | cls => rfl
      | id => rfl
    have hallowed : branchAllowed allow
        ⟨Text.strip (naming.selector spelled), [naming.part name]⟩ = true := by
      rw [branchAllowed_part, haccepts]
    rw [outcome, hblank, hread]
    dsimp only
    rw [List.filter_cons_of_pos hallowed]
    rfl
  refine ⟨hread, hkept, fun before children after => ?_⟩
  rw [nodes_purge_append, nodes_purge_cons, purgeNode, hkept]
  rfl

/-- A name with a slash and a comma, spelled with two code points and two backslashes.  The space behind
the last code point is trimmed off. -/
theorem purge_opening_escaped :
    (∀ name ∈ ["a:b", "1/2,x"], Markup.IsName name) ∧
      Spelling "1/2,x".toList "\\31 \\/2\\,\\000078 ".toList ∧
      readList ".\\31 \\/2\\,\\000078 " = .ok [⟨".\\31 \\/2\\,\\000078", [.cls "1/2,x"]⟩] ∧
      (purge (Source.allowList "<div class=\"a:b 1/2,x\">" [])
        [.rule ".\\31 \\/2\\,\\000078 " [.comment "kept"]]).nodes =
        [.rule ".\\31 \\/2\\,\\000078" [.comment "kept"]] := by
  have hnames : ∀ name ∈ ["a:b", "1/2,x"], Markup.IsName name := by
    refine List.forall_mem_cons.2 ⟨?_, List.forall_mem_singleton.2 ?_⟩
    · exact ⟨⟨by decide, by simp [isSpace]⟩, by simp [Markup.isQuote], by simp⟩
    · exact ⟨⟨by decide, by simp [isSpace]⟩, by simp [Markup.isQuote], by simp⟩
  have hone : Selector.Spells '1' ('\\' :: (['3', '1'] ++ [' '])) :=
    .code (by decide) (by decide) (by simp; decide) (by decide)
  have hx : Selector.Spells 'x' ('\\' :: (['0', '0', '0', '0', '7', '8'] ++ [' '])) :=
    .code (by decide) (by decide) (by simp; decide) (by decide)
  have hspelled : Spelling "1/2,x".toList "\\31 \\/2\\,\\000078 ".toList :=
    .cons hone (.cons (.escaped (by decide)) (.cons (.itself (by decide))
      (.cons (.escaped (by decide)) (.cons hx .nil))))
  obtain ⟨hread, -, hpurge⟩ := purge_opening .cls ["a:b", "1/2,x"] hnames "1/2,x" (by decide) _
    hspelled []
  exact ⟨hnames, hspelled, hread, hpurge [] [.comment "kept"] []⟩

end Purge

end Stylesheet
