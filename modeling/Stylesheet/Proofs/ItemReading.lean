import Mathlib.Data.List.TakeWhile
import Stylesheet.Proofs.Legible

/-!
# Reading item by item

The reader goes through component values one at a time.  Seen from further off it goes through items:
`Item` says which component values make one item and which nodes it gives, and `exists_item` cuts the
first item off.  The one thing between two items that is no item is a `{}` block with nothing before
it: its text may become part of the next item.
-/

namespace Stylesheet.Node

open Stylesheet.Text (trim lower)
open Component (isInner startsItem textOf)

/-- What ends an item without a block: a semicolon, or the end of all component values. -/
inductive Stop : (stop rest : List Component) → Prop
  | semicolon {t : Token} (rest : List Component) : t.kind = .semicolon → Stop [.token t] rest
  | atEnd : Stop [] []

/-- Some component values make one item in front of the others, and it gives these nodes. -/
inductive Item (rest : List Component) : List Component → List Node → Prop
  | skipped {t : Token} (hkind : t.kind = .blank ∨ t.kind = .semicolon ∨ t.kind = .legacyMark) :
      Item rest [.token t] []
  | comment {t : Token} {body : List Char} {closed : Bool} (hkind : t.kind = .comment body closed) :
      Item rest [.token t] [.comment (.ofList body)]
  | plain {c : Component} {inner stop : List Component} (hstart : startsItem c = true)
      (hinner : ∀ d ∈ c :: inner, isInner false d = true) (hstop : Stop stop rest) :
      Item rest (c :: inner ++ stop) (Pending.finish (.item (textOf (c :: inner))))
  | rule {c : Component} {inner body : List Component} {opener : Token} {closer : Option Token}
      (hstart : startsItem c = true) (hinner : ∀ d ∈ c :: inner, isInner false d = true) :
      Item rest (c :: inner ++ [.block .curly opener body closer])
        [.rule (.ofList (trim (textOf (c :: inner)))) (readFrom (.between []) body)]
  | statement {t : Token} {name : List Char} {inner stop : List Component}
      (hkind : t.kind = .atKeyword name) (hinner : ∀ d ∈ inner, isInner false d = true)
      (hstop : Stop stop rest) :
      Item rest (.token t :: inner ++ stop)
        [.statement (.ofList (lower name)) (.ofList (trim (textOf inner)))]
  | atRule {t : Token} {name : List Char} {inner body : List Component} {opener : Token}
      {closer : Option Token} (hkind : t.kind = .atKeyword name)
      (hinner : ∀ d ∈ inner, isInner false d = true) :
      Item rest (.token t :: inner ++ [.block .curly opener body closer])
        [ofAtRule (.ofList (lower name)) (textOf inner) (readFrom (.between []) body)]

/-! ## Where an item ends -/

theorem eq_of_not_isInner {c : Component} (h : isInner false c = false) :
    (∃ t : Token, c = .token t ∧ t.kind = .semicolon) ∨
      ∃ opener body closer, c = .block .curly opener body closer := by
  cases c with
  | token t =>
      left
      refine ⟨t, rfl, ?_⟩
      rw [isInner] at h
      split at h <;> simp_all
  | block bracket opener body closer =>
      cases bracket with
      | curly => exact .inr ⟨opener, body, closer, rfl⟩
      | paren => simp [isInner] at h
      | square => simp [isInner] at h

/-- A head goes on until a semicolon, a `{}` block or the end. -/
theorem exists_inner (cs : List Component) : ∃ inner rest, cs = inner ++ rest ∧
    (∀ d ∈ inner, isInner false d = true) ∧
      (rest = [] ∨ (∃ t rest', rest = .token t :: rest' ∧ t.kind = .semicolon) ∨
        ∃ opener body closer rest', rest = .block .curly opener body closer :: rest') := by
  refine ⟨cs.takeWhile (isInner false), cs.dropWhile (isInner false),
    List.takeWhile_append_dropWhile.symm, fun d hd => List.mem_takeWhile_imp hd, ?_⟩
  cases hrest : cs.dropWhile (isInner false) with
  | nil => exact .inl rfl
  | cons c rest =>
      right
      have hc : isInner false c = false := by
        have hhead := List.head_dropWhile_not (isInner false) (l := cs) (by simp [hrest])
        simpa [hrest] using hhead
      rcases eq_of_not_isInner hc with ⟨t, rfl, ht⟩ | ⟨opener, body, closer, rfl⟩
      · exact .inl ⟨t, rest, rfl, ht⟩
      · exact .inr ⟨opener, body, closer, rest, rfl⟩

/-- Component values that start like a rule or declaration start with one item. -/
theorem exists_item_of_startsItem {c : Component} (cs : List Component)
    (hstart : startsItem c = true) (hc : isInner false c = true) :
    ∃ item rest ns, c :: cs = item ++ rest ∧ item ≠ [] ∧ Item rest item ns := by
  obtain ⟨inner, tail, rfl, hinner, htail⟩ := exists_inner cs
  have hall : ∀ d ∈ c :: inner, isInner false d = true := List.forall_mem_cons.2 ⟨hc, hinner⟩
  rcases htail with rfl | ⟨t, rest, rfl, ht⟩ | ⟨opener, body, closer, rest, rfl⟩
  · exact ⟨c :: inner ++ [], [], _, by simp, by simp, .plain hstart hall .atEnd⟩
  · exact ⟨c :: inner ++ [.token t], rest, _, by simp, by simp,
      .plain hstart hall (.semicolon rest ht)⟩
  · exact ⟨c :: inner ++ [.block .curly opener body closer], rest, _, by simp, by simp,
      .rule hstart hall⟩

/-- Component values that start with an at-keyword start with one item. -/
theorem exists_item_of_atKeyword {t : Token} {name : List Char} (cs : List Component)
    (ht : t.kind = .atKeyword name) :
    ∃ item rest ns, .token t :: cs = item ++ rest ∧ item ≠ [] ∧ Item rest item ns := by
  obtain ⟨inner, tail, rfl, hinner, htail⟩ := exists_inner cs
  rcases htail with rfl | ⟨u, rest, rfl, hu⟩ | ⟨opener, body, closer, rest, rfl⟩
  · exact ⟨.token t :: inner ++ [], [], _, by simp, by simp, .statement ht hinner .atEnd⟩
  · exact ⟨.token t :: inner ++ [.token u], rest, _, by simp, by simp,
      .statement ht hinner (.semicolon rest hu)⟩
  · exact ⟨.token t :: inner ++ [.block .curly opener body closer], rest, _, by simp, by simp,
      .atRule ht hinner⟩

/-- Component values start with an item, or with a block that is dropped. -/
theorem exists_item (c : Component) (cs : List Component) :
    (∃ opener body closer, c = .block .curly opener body closer) ∨
      ∃ item rest ns, c :: cs = item ++ rest ∧ item ≠ [] ∧ Item rest item ns := by
  cases c with
  | block bracket opener body closer =>
      cases bracket with
      | curly => exact .inl ⟨opener, body, closer, rfl⟩
      | paren => exact .inr (exists_item_of_startsItem cs rfl rfl)
      | square => exact .inr (exists_item_of_startsItem cs rfl rfl)
  | token t =>
      right
      cases hkind : t.kind with
      | blank => exact ⟨[.token t], cs, _, by simp, by simp, .skipped (.inl hkind)⟩
      | semicolon => exact ⟨[.token t], cs, _, by simp, by simp, .skipped (.inr (.inl hkind))⟩
      | legacyMark => exact ⟨[.token t], cs, _, by simp, by simp, .skipped (.inr (.inr hkind))⟩
      | comment body closed => exact ⟨[.token t], cs, _, by simp, by simp, .comment hkind⟩
      | atKeyword name => exact exists_item_of_atKeyword cs hkind
      | closing bracket =>
          refine exists_item_of_startsItem cs (by simp [startsItem, hkind]) ?_
          cases bracket <;> simp [isInner, hkind]
      | _ => exact exists_item_of_startsItem cs (by simp [startsItem, hkind]) (by simp [isInner, hkind])

/-! ## Reading an item -/

theorem Stop.readFrom_append {stop rest : List Component} (h : Stop stop rest) (p : Pending) :
    readFrom p (stop ++ rest) = p.finish ++ readFrom (.between []) rest := by
  cases h with
  | semicolon rest ht =>
      rw [List.singleton_append, readFrom, readStep, readToken.eq_def, ht]
      cases p <;> rfl
  | atEnd =>
      rw [List.append_nil, readFrom, readFrom, Pending.finish, List.append_nil]

/-- The reader gives the nodes of an item and goes on after it. -/
theorem Item.readFrom_append {item rest : List Component} {ns : List Node} (h : Item rest item ns) :
    readFrom (.between []) (item ++ rest) = ns ++ readFrom (.between []) rest := by
  cases h with
  | skipped hkind =>
      rw [List.singleton_append, readFrom, readStep, readToken.eq_def]
      rcases hkind with hkind | hkind | hkind
      · rw [hkind]
      · rw [hkind]
        rfl
      · rw [hkind]
  | comment hkind => rw [List.singleton_append, readFrom, readStep, readToken.eq_def, hkind]
  | plain hstart hinner hstop =>
      rw [List.append_assoc, readFrom_item hstart hinner, hstop.readFrom_append]
  | rule hstart hinner =>
      rw [List.append_assoc, readFrom_item hstart hinner, List.singleton_append, readFrom, readStep]
  | statement hkind hinner hstop =>
      rw [List.append_assoc, readFrom_atKeyword hkind hinner, hstop.readFrom_append, Pending.finish]
  | atRule hkind hinner =>
      rw [List.append_assoc, readFrom_atKeyword hkind hinner, List.singleton_append, readFrom,
        readStep]

/-- An item is an item with nothing after it, too. -/
theorem Item.alone {item rest : List Component} {ns : List Node} (h : Item rest item ns) :
    Item [] item ns := by
  have hstop : ∀ {stop : List Component}, Stop stop rest → Stop stop [] := by
    rintro stop (⟨_, ht⟩ | _)
    · exact .semicolon [] ht
    · exact .atEnd
  cases h with
  | skipped hkind => exact .skipped hkind
  | comment hkind => exact .comment hkind
  | plain hstart hinner hs => exact .plain hstart hinner (hstop hs)
  | rule hstart hinner => exact .rule hstart hinner
  | statement hkind hinner hs => exact .statement hkind hinner (hstop hs)
  | atRule hkind hinner => exact .atRule hkind hinner

theorem Item.readFrom_eq {item rest : List Component} {ns : List Node} (h : Item rest item ns) :
    readFrom (.between []) item = ns := by
  have hread := h.alone.readFrom_append
  rwa [List.append_nil, readFrom, Pending.finish, List.append_nil] at hread

end Stylesheet.Node
