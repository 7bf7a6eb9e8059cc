import Mathlib.Data.Finset.Card
import Stylesheet.Source

/-!
# What an allow-list holds

Entries come into an allow-list in three ways: one entry, one literal, or many entries.  A sequence of
such changes comes to the same as adding all their entries at once (`run_eq_extend`).

A list answers as its entries do (`accepts_extend`): neither their order nor their repetitions matter.
Its literals are a set, in which no literal comes twice, and its patterns are all patterns that were added,
in their order.  Of a safelist only the entries that can be read become entries of the list.

`accepts_iff_of_entries` puts this together.  Which texts can be read as patterns, and what they match, is
up to an engine, and what is said here holds for every engine.
-/

namespace Stylesheet

open Stylesheet.Source (SafelistEntry)

namespace Matcher

/-- The token of a literal. -/
def literal? : Matcher → Option String
  | .literal token => some token
  | .test _ => none

/-- The test of a pattern. -/
def test? : Matcher → Option (String → Bool)
  | .literal _ => none
  | .test holds => some holds

end Matcher

namespace AllowList

/-! ## Entries and answers -/

theorem accepts_insertLiteral (list : AllowList) (token candidate : String) :
    (list.insertLiteral token).accepts candidate =
      (list.accepts candidate || token == candidate) := by
  rw [insertLiteral]
  cases hmem : list.literals.contains token with
  | true =>
      rw [if_pos rfl]
      cases heq : token == candidate with
      | true =>
          -- The token is there already, so it is accepted without being added.
          rw [beq_iff_eq] at heq
          subst heq
          rw [accepts, hmem]
          rfl
      | false => rw [Bool.or_false]
  | false =>
      have hcontains : (list.literals ++ [token]).contains candidate =
          (list.literals.contains candidate || token == candidate) := by
        rw [Bool.eq_iff_iff, Bool.or_eq_true, List.contains_iff_mem, List.contains_iff_mem,
          List.mem_append, List.mem_singleton, beq_iff_eq]
        exact or_congr Iff.rfl eq_comm
      rw [if_neg (by simp), accepts, accepts, hcontains, Bool.or_right_comm]

theorem accepts_insert (list : AllowList) (matcher : Matcher) (candidate : String) :
    (list.insert matcher).accepts candidate =
      (list.accepts candidate || matcher.accepts candidate) := by
  cases matcher with
  | literal token => exact accepts_insertLiteral list token candidate
  | test holds => simp [insert, accepts, Matcher.accepts, Bool.or_assoc]

/-- A token is accepted after some entries were added when it was before or when one of them matches
it. -/
theorem accepts_extend (list : AllowList) (matchers : List Matcher) (candidate : String) :
    (list.extend matchers).accepts candidate =
      (list.accepts candidate || matchers.any fun m => m.accepts candidate) := by
  induction matchers generalizing list with
  | nil => simp [extend]
  | cons m ms ih =>
      have hcons : list.extend (m :: ms) = (list.insert m).extend ms := rfl
      rw [hcons, ih, accepts_insert, List.any_cons, Bool.or_assoc]

theorem extend_append (list : AllowList) (a b : List Matcher) :
    list.extend (a ++ b) = (list.extend a).extend b := by
  rw [extend, extend, extend, List.foldl_append]

/-- The answers of a list that had no entries of its own before. -/
theorem accepts_initial_extend (entries : List Matcher) (candidate : String) :
    (initial.extend entries).accepts candidate = true ↔
      candidate ∈ globals ∨ ∃ m ∈ entries, m.accepts candidate = true := by
  have hglobal : initial.accepts candidate = true ↔ candidate ∈ globals := by
    rw [accepts, initial, List.any_nil, Bool.or_false, List.contains_iff_mem]
  rw [accepts_extend, Bool.or_eq_true, hglobal, List.any_eq_true]

/-- The same entries, in any order and number, give the same answers. -/
theorem accepts_congr {entries entries' : List Matcher} (h : ∀ m, m ∈ entries ↔ m ∈ entries')
    (candidate : String) :
    (initial.extend entries).accepts candidate = (initial.extend entries').accepts candidate := by
  rw [Bool.eq_iff_iff, accepts_initial_extend, accepts_initial_extend]
  exact or_congr Iff.rfl (exists_congr fun m => and_congr_left' (h m))

/-! ## Literals and patterns -/

theorem mem_insertLiteral {list : AllowList} {token candidate : String} :
    candidate ∈ (list.insertLiteral token).literals ↔
      candidate ∈ list.literals ∨ candidate = token := by
  rw [insertLiteral]
  split
  · next hmem =>
      rw [List.contains_iff_mem] at hmem
      refine ⟨.inl, ?_⟩
      rintro (hcandidate | rfl)
      · exact hcandidate
      · exact hmem
  · rw [List.mem_append, List.mem_singleton]

theorem nodup_insertLiteral {list : AllowList} (h : list.literals.Nodup) (token : String) :
    (list.insertLiteral token).literals.Nodup := by
  rw [insertLiteral]
  split
  · exact h
  · next hmem =>
      rw [List.contains_iff_mem] at hmem
      refine List.nodup_append.2 ⟨h, List.nodup_singleton token, fun a ha b hb => ?_⟩
      rw [List.mem_singleton.1 hb]
      exact ne_of_mem_of_not_mem ha hmem

theorem patterns_insertLiteral (list : AllowList) (token : String) :
    (list.insertLiteral token).patterns = list.patterns := by
  rw [insertLiteral]
  split
  · rfl
  · rfl

theorem mem_literals_extend {list : AllowList} {entries : List Matcher} {token : String} :
    token ∈ (list.extend entries).literals ↔
      token ∈ list.literals ∨ token ∈ entries.filterMap Matcher.literal? := by
  induction entries generalizing list with
  | nil => simp [extend]
  | cons m ms ih =>
      have hcons : list.extend (m :: ms) = (list.insert m).extend ms := rfl
      rw [hcons, ih]
      cases m with
      | literal t =>
          rw [insert, mem_insertLiteral, or_assoc]
          exact or_congr Iff.rfl List.mem_cons.symm
      | test holds => rfl

theorem nodup_literals_extend {list : AllowList} (h : list.literals.Nodup)
    (entries : List Matcher) : (list.extend entries).literals.Nodup := by
  induction entries generalizing list with
  | nil => exact h
  | cons m ms ih =>
      cases m with
      | literal token => exact ih (nodup_insertLiteral h token)
      | test holds => exact ih h

theorem patterns_extend (list : AllowList) (entries : List Matcher) :
    (list.extend entries).patterns = list.patterns ++ entries.filterMap Matcher.test? := by
  induction entries generalizing list with
  | nil => exact (List.append_nil _).symm
  | cons m ms ih =>
      have hcons : list.extend (m :: ms) = (list.insert m).extend ms := rfl
      rw [hcons, ih]
      cases m with
      | literal token =>
          rw [insert, patterns_insertLiteral]
          rfl
      | test holds => exact List.append_assoc _ _ _

/-- The literals of every allow-list and those among some entries. -/
def literalsOf (entries : List Matcher) : List String :=
  globals ++ entries.filterMap Matcher.literal?

/-- Each literal is counted once. -/
theorem length_literals_extend (entries : List Matcher) :
    (initial.extend entries).literals.length = (literalsOf entries).toFinset.card := by
  have hnodup : initial.literals.Nodup := by decide
  rw [← List.toFinset_card_of_nodup (nodup_literals_extend hnodup entries)]
  congr 1
  ext token
  rw [List.mem_toFinset, List.mem_toFinset, mem_literals_extend, literalsOf, List.mem_append]
  rfl

/-- Each pattern is counted as often as it was added. -/
theorem length_patterns_extend (entries : List Matcher) :
    (initial.extend entries).patterns.length = entries.countP fun m => m.test?.isSome := by
  rw [patterns_extend, List.length_append, List.length_filterMap_eq_countP]
  exact Nat.zero_add _

/-! ## Changes -/

/-- A change to an allow-list. -/
inductive Change where
  /-- An entry is added. -/
  | insert (matcher : Matcher)
  /-- A literal is added. -/
  | insertLiteral (token : String)
  /-- Some entries are added. -/
  | extend (matchers : List Matcher)

/-- The list after a change. -/
def apply (list : AllowList) : Change → AllowList
  | .insert matcher => list.insert matcher
  | .insertLiteral token => list.insertLiteral token
  | .extend matchers => list.extend matchers

/-- The list after some changes, one after the other. -/
def run (list : AllowList) (changes : List Change) : AllowList := changes.foldl apply list

/-- The entries that a change adds. -/
def Change.entries : Change → List Matcher
  | .insert matcher => [matcher]
  | .insertLiteral token => [.literal token]
  | .extend matchers => matchers

/-- The entries that some changes add. -/
def added (changes : List Change) : List Matcher := changes.flatMap Change.entries

/-- A change adds its entries. -/
theorem apply_eq_extend (list : AllowList) (change : Change) :
    list.apply change = list.extend change.entries := by
  cases change with
  | insert matcher => rfl
  | insertLiteral token => rfl
  | extend matchers => rfl

/-- Changes add all their entries. -/
theorem run_eq_extend (list : AllowList) (changes : List Change) :
    list.run changes = list.extend (added changes) := by
  induction changes generalizing list with
  | nil => rfl
  | cons change changes ih =>
      have hcons : list.run (change :: changes) = (list.apply change).run changes := rfl
      rw [hcons, ih, apply_eq_extend, ← extend_append]
      rfl

/-! ## The allow-list of a text -/

/-- A name is a literal entry. -/
theorem exists_literal_iff {names : List String} {candidate : String} :
    (∃ m ∈ names.map Matcher.literal, m.accepts candidate = true) ↔ candidate ∈ names := by
  simp [Matcher.accepts]

/-- Which tokens the entries of a safelist match. -/
theorem exists_matcher_iff [engine : Pattern.Engine] {safelist : List SafelistEntry}
    {candidate : String} :
    (∃ m ∈ safelist.filterMap SafelistEntry.matcher?, m.accepts candidate = true) ↔
      .literal candidate ∈ safelist ∨
        ∃ source holds, .pattern source ∈ safelist ∧ engine.compile? source = some holds ∧
          holds candidate = true := by
  constructor
  · rintro ⟨m, hm, haccepts⟩
    obtain ⟨entry, hentry, hmatcher⟩ := List.mem_filterMap.1 hm
    cases entry with
    | literal token =>
        obtain rfl := Option.some.inj hmatcher
        obtain rfl : token = candidate := beq_iff_eq.1 haccepts
        exact .inl hentry
    | pattern source =>
        obtain ⟨holds, hcompile, rfl⟩ := Option.map_eq_some_iff.1 hmatcher
        exact .inr ⟨source, holds, hentry, hcompile, haccepts⟩
  · rintro (hliteral | ⟨source, holds, hentry, hcompile, haccepts⟩)
    · exact ⟨.literal candidate, List.mem_filterMap.2 ⟨_, hliteral, rfl⟩, beq_iff_eq.2 rfl⟩
    · refine ⟨.test holds, List.mem_filterMap.2 ⟨_, hentry, ?_⟩, haccepts⟩
      rw [SafelistEntry.matcher?, hcompile]
      rfl

/-- An allow-list to which entries were added, in any of the three ways, answers as the entries do; its
literals are counted once each and its patterns all.  So with any engine the allow-list of a text accepts
the global literals, the names in the text, and what the entries of the safelist match that can be read;
and safelists with the same entries among those that can be read give the same answers. -/
theorem accepts_iff_of_entries [engine : Pattern.Engine] :
    (∀ (changes : List Change) (candidate : String),
      (initial.run changes).accepts candidate = true ↔
        candidate ∈ globals ∨ ∃ m ∈ added changes, m.accepts candidate = true) ∧
    (∀ changes changes' : List Change, (∀ m, m ∈ added changes ↔ m ∈ added changes') →
      ∀ candidate, (initial.run changes).accepts candidate = (initial.run changes').accepts candidate) ∧
    (∀ changes : List Change,
      (initial.run changes).literals.length = (literalsOf (added changes)).toFinset.card ∧
        (initial.run changes).patterns.length =
          (added changes).countP fun m => m.test?.isSome) ∧
    (∀ (text : String) (safelist : List SafelistEntry) (candidate : String),
      (Source.allowList text safelist).accepts candidate = true ↔
        candidate ∈ globals ∨ candidate ∈ Markup.tags text ∨ candidate ∈ Markup.ids text ∨
          candidate ∈ Markup.classes text ∨ .literal candidate ∈ safelist ∨
          ∃ source holds, .pattern source ∈ safelist ∧ engine.compile? source = some holds ∧
            holds candidate = true) ∧
    ∀ (text : String) (safelist safelist' : List SafelistEntry),
      (∀ entry, entry.matcher?.isSome = true → (entry ∈ safelist ↔ entry ∈ safelist')) →
        ∀ candidate, (Source.allowList text safelist).accepts candidate =
          (Source.allowList text safelist').accepts candidate := by
  have hrun : ∀ changes : List Change, initial.run changes = initial.extend (added changes) :=
    run_eq_extend initial
  refine ⟨fun changes candidate => ?_, fun changes changes' h candidate => ?_,
    fun changes => ?_, fun text safelist candidate => ?_, fun text safelist safelist' h => ?_⟩
  · rw [hrun]
    exact accepts_initial_extend _ candidate
  · rw [hrun, hrun]
    exact accepts_congr h candidate
  · rw [hrun]
    exact ⟨length_literals_extend _, length_patterns_extend _⟩
  · rw [Source.allowList, ofMatchers, accepts_initial_extend]
    simp only [List.mem_append, or_and_right, exists_or, exists_literal_iff, exists_matcher_iff,
      Source.names, or_assoc]
  · have hmem : ∀ m, m ∈ safelist.filterMap SafelistEntry.matcher? ↔
        m ∈ safelist'.filterMap SafelistEntry.matcher? := by
      intro m
      simp only [List.mem_filterMap]
      refine exists_congr fun entry => and_congr_left fun hentry => h entry ?_
      rw [hentry]
      rfl
    refine accepts_congr fun m => ?_
    rw [List.mem_append, List.mem_append, hmem]

/-- Literals in another order and with repetitions, and a safelist with an entry in front that cannot be
read. -/
theorem accepts_iff_of_entries_reordered :
    ((∀ m, m ∈ added [.insertLiteral ".a", .insert (.literal ".b")] ↔
        m ∈ added [.extend [.literal ".b", .literal ".a", .literal ".b"]]) ∧
      ∀ candidate, (initial.run [.insertLiteral ".a", .insert (.literal ".b")]).accepts candidate =
        (initial.run [.extend [.literal ".b", .literal ".a", .literal ".b"]]).accepts candidate) ∧
    (∀ entry : SafelistEntry, entry.matcher?.isSome = true →
        (entry ∈ [.literal ".a"] ↔ entry ∈ [.pattern "(", .literal ".a", .literal ".a"])) ∧
      ∀ candidate, (Source.allowList "<b>" [.literal ".a"]).accepts candidate =
        (Source.allowList "<b>" [.pattern "(", .literal ".a", .literal ".a"]).accepts candidate := by
  have hadded : ∀ m, m ∈ added [.insertLiteral ".a", .insert (.literal ".b")] ↔
      m ∈ added [.extend [.literal ".b", .literal ".a", .literal ".b"]] := by
    intro m
    simp only [added, Change.entries, List.flatMap_cons, List.flatMap_nil, List.mem_append,
      List.mem_cons, List.not_mem_nil, or_false]
    tauto
  have hreadable : ∀ entry : SafelistEntry, entry.matcher?.isSome = true →
      (entry ∈ [.literal ".a"] ↔ entry ∈ [.pattern "(", .literal ".a", .literal ".a"]) := by
    intro entry hentry
    have hunreadable : (SafelistEntry.pattern "(").matcher?.isSome = false := by decide +kernel
    have hne : entry ≠ .pattern "(" := by
      rintro rfl
      rw [hunreadable] at hentry
      cases hentry
    simp [hne]
  exact ⟨⟨hadded, accepts_iff_of_entries.2.1 _ _ hadded⟩, hreadable,
    accepts_iff_of_entries.2.2.2.2 _ _ _ hreadable⟩

end AllowList

end Stylesheet
