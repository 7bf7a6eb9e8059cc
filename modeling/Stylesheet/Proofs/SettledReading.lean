import Stylesheet.Proofs.DeclarationText
import Stylesheet.Proofs.RoundTrip
import Stylesheet.Proofs.TokenShape

/-!
# Reading gives settled trees

Whatever the text, the tree that is read from it is settled in the pretty style
(`Document.settledAll_ofText`): its texts are trimmed, its at-keywords are in lower case, its
declarations are normal and its comments do not close themselves.  So of the two conditions under
which a tree is read back from its pretty text, only legibility can fail for a tree that was read.
-/

namespace Stylesheet.Node

open Stylesheet.Text (trim lower)
open Component (tokens tokensOf)

theorem settledAll_append {style : Style} {a b : List Node} (ha : SettledAll style a)
    (hb : SettledAll style b) : SettledAll style (a ++ b) := by
  induction a with
  | nil => exact hb
  | cons n ns ih =>
      rw [SettledAll] at ha
      rw [List.cons_append, SettledAll]
      exact ⟨ha.1, ih ha.2⟩

/-- An at-keyword that has been seen is in lower case. -/
def Pending.Settled : Pending → Prop
  | .between _ => True
  | .atRule name _ => lower name.toList = name.toList
  | .item _ => True

theorem Pending.Settled.extend {p : Pending} (h : p.Settled) (text : List Char) :
    (p.extend text).Settled := by
  cases p with
  | between dropped => trivial
  | atRule name params => exact h
  | item seen => trivial

theorem atSettled_trim {name : String} (hname : lower name.toList = name.toList)
    (params : List Char) : AtSettled .pretty name (.ofList (trim params)) := by
  refine ⟨hname, ?_, rfl⟩
  rw [String.toList_ofList]
  exact Text.trimmed_trim params

theorem settledAll_finish {p : Pending} (h : p.Settled) : SettledAll .pretty p.finish := by
  cases p with
  | between dropped =>
      rw [Pending.finish, SettledAll]
      trivial
  | atRule name params =>
      rw [Pending.finish, SettledAll, SettledAll, Settled]
      exact ⟨atSettled_trim h params, trivial⟩
  | item text =>
      rw [Pending.finish]
      cases hd : Declaration.ofText? text with
      | none =>
          show SettledAll .pretty []
          rw [SettledAll]
          trivial
      | some d =>
          show SettledAll .pretty [.declaration d]
          rw [SettledAll, SettledAll, Settled]
          exact ⟨(Declaration.normal_of_ofText? hd).ofText?_declarationText .pretty, trivial⟩

/-- The node of an at-rule is settled when its contents are. -/
theorem settled_ofAtRule {name : String} (hname : lower name.toList = name.toList)
    (params : List Char) {children : List Node} (hchildren : SettledAll .pretty children) :
    Settled .pretty (ofAtRule name params children) := by
  have hat := atSettled_trim hname params
  rw [ofAtRule.eq_def]
  dsimp only
  split
  · rw [Settled]
    split
    · next hempty =>
        rw [String.isEmpty_iff.1 hempty] at hat
        exact ⟨by simp, hat, hchildren⟩
    · next hempty =>
        refine ⟨?_, hat, hchildren⟩
        rintro hnone
        rw [Option.some.inj hnone] at hempty
        exact hempty rfl
  · rw [Settled]
    exact ⟨hat, hchildren⟩
  · next hlayer hmedia =>
      rw [Settled]
      exact ⟨hlayer, hmedia, hat, hchildren⟩

theorem settled_readToken {p : Pending} (hp : p.Settled) {t : Token} (ht : t.Shaped) :
    SettledAll .pretty (readToken p t).1 ∧ (readToken p t).2.Settled := by
  have hnil : SettledAll .pretty [] := by
    rw [SettledAll]
    trivial
  rw [readToken.eq_def]
  split
  · exact ⟨hnil, trivial⟩
  · exact ⟨hnil, trivial⟩
  · next body closed hkind =>
      rw [Token.Shaped, hkind] at ht
      rw [SettledAll, SettledAll, Settled, String.toList_ofList]
      exact ⟨⟨ht.1, trivial⟩, trivial⟩
  · next name hkind =>
      refine ⟨hnil, ?_⟩
      rw [Pending.Settled, String.toList_ofList, Text.lower_lower]
  · exact ⟨settledAll_finish hp, trivial⟩
  · exact ⟨hnil, hp.extend t.text⟩

mutual

theorem settled_readStep : (c : Component) → {p : Pending} → p.Settled →
    (∀ t ∈ tokens c, t.Shaped) →
    SettledAll .pretty (readStep p c).1 ∧ (readStep p c).2.Settled
  | .token t, p, hp, ht => by
      rw [readStep]
      exact settled_readToken hp (ht t (by simp [tokens]))
  | .block bracket opener body closer, p, hp, ht => by
      have hbody : ∀ t ∈ tokensOf body, t.Shaped := by
        intro t hmem
        exact ht t (by simp [tokens, hmem])
      have hchildren := settled_readFrom body (p := .between []) trivial hbody
      have hnil : SettledAll .pretty [] := by
        rw [SettledAll]
        trivial
      rw [readStep.eq_def]
      dsimp only
      split
      · exact ⟨hnil, trivial⟩
      · rw [SettledAll, SettledAll]
        exact ⟨⟨settled_ofAtRule hp _ hchildren, trivial⟩, trivial⟩
      · rw [SettledAll, SettledAll, Settled, String.toList_ofList]
        exact ⟨⟨⟨Text.trimmed_trim _, rfl, hchildren⟩, trivial⟩, trivial⟩
      · exact ⟨hnil, hp.extend _⟩
termination_by structural c => c

/-- What is read from shaped tokens is settled. -/
theorem settled_readFrom : (cs : List Component) → {p : Pending} → p.Settled →
    (∀ t ∈ tokensOf cs, t.Shaped) → SettledAll .pretty (readFrom p cs)
  | [], p, hp, _ => by
      rw [readFrom]
      exact settledAll_finish hp
  | c :: cs, p, hp, ht => by
      obtain ⟨hstep, hnext⟩ := settled_readStep c hp fun t hmem => ht t (by simp [hmem])
      rw [readFrom]
      exact settledAll_append hstep (settled_readFrom cs hnext fun t hmem => ht t (by simp [hmem]))
termination_by structural cs => cs

end

end Stylesheet.Node

namespace Stylesheet

theorem Document.settledAll_ofText (css : String) :
    Node.SettledAll .pretty (Document.ofText css).nodes := by
  refine Node.settled_readFrom _ trivial ?_
  intro t ht
  rw [Component.tokensOf_group] at ht
  exact Token.shaped_tokenize ht

end Stylesheet
