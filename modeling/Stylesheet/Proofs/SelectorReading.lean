import Stylesheet.Proofs.ListCutting

/-!
# Reading selectors part by part

What the reader does with the text of a branch, told as a step each: an escape, a name, the name of a
pseudo-class and its argument, a space, a combinator, a part.  What can be read of a branch is a run of such
steps (`Run`), and what holds of all branches is shown by induction over runs.

Escapes and names are told apart from the text behind them (`Escape`, `NameAt`), since an escape of digits
ends where the text behind it is no digit, and a name where it does not go on.
-/

namespace Stylesheet.Selector

open Stylesheet.Text (headIs hexLength isHexDigit isSpace lower trim)

/-! ## Escapes -/

/-- A run of digits is as long as it is, up to the first character that is none. -/
theorem hexLength_append {digits : List Char} (hdigits : ∀ d ∈ digits, isHexDigit d = true)
    {n : Nat} (hn : digits.length ≤ n) {cs : List Char}
    (hend : digits.length = n ∨ headIs isHexDigit cs = false) :
    hexLength n (digits ++ cs) = digits.length := by
  induction digits generalizing n with
  | nil =>
      cases n with
      | zero => rfl
      | succ n =>
          have hcs : headIs isHexDigit cs = false := hend.resolve_left (Nat.succ_ne_zero n).symm
          cases cs with
          | nil => rfl
          | cons c cs => exact if_neg (by rw [show isHexDigit c = false from hcs]; decide)
  | cons d digits ih =>
      obtain ⟨hd, hdigits⟩ := List.forall_mem_cons.1 hdigits
      cases n with
      | zero => simp at hn
      | succ n =>
          rw [List.cons_append, hexLength, if_pos hd,
            ih hdigits (Nat.le_of_succ_le_succ hn) (hend.imp_left Nat.succ.inj), List.length_cons,
            Nat.add_comm]

theorem hexLength_self {digits : List Char} (hdigits : ∀ d ∈ digits, isHexDigit d = true) {n : Nat}
    (hn : digits.length ≤ n) : hexLength n digits = digits.length := by
  have hall := hexLength_append hdigits hn (.inr rfl : _ ∨ headIs isHexDigit [] = false)
  rwa [List.append_nil] at hall

/-- The digits of an escape. -/
structure IsCode (digits : List Char) : Prop where
  /-- There is one at least. -/
  ne_nil : digits ≠ []
  /-- There are six at most. -/
  length_le : digits.length ≤ 6
  /-- They are digits. -/
  hex : ∀ d ∈ digits, isHexDigit d = true

/-- Six digits end by themselves, fewer in front of a character that is none. -/
def Ends (digits rest : List Char) : Prop := digits.length = 6 ∨ headIs isHexDigit rest = false

namespace IsCode

variable {digits : List Char} (h : IsCode digits)

include h

/-- Digits are one escape, with the space after them. -/
theorem escapeLength_append {rest : List Char} (hend : Ends digits rest) :
    escapeLength (digits ++ rest) = digits.length + if headIs isSpace rest then 1 else 0 := by
  obtain ⟨hne, hlength, hhex⟩ := h
  cases digits with
  | nil => exact absurd rfl hne
  | cons d digits =>
      obtain ⟨hd, hrest⟩ := List.forall_mem_cons.1 hhex
      have hrun := hexLength_append hrest (Nat.le_of_succ_le_succ hlength)
        (hend.imp_left Nat.succ.inj)
      rw [List.cons_append, escapeLength, if_pos hd, hrun]
      dsimp only
      rw [Nat.add_comm 1, List.drop_succ_cons, List.drop_left, List.length_cons]

/-- What digits stand for does not depend on the text behind them. -/
theorem escapeValue_append {rest : List Char} (hend : Ends digits rest) :
    escapeValue (digits ++ rest) = escapeValue digits := by
  obtain ⟨hne, hlength, hhex⟩ := h
  cases digits with
  | nil => exact absurd rfl hne
  | cons d digits =>
      obtain ⟨hd, hrest⟩ := List.forall_mem_cons.1 hhex
      have hle := Nat.le_of_succ_le_succ hlength
      have hrun := hexLength_append hrest hle (hend.imp_left Nat.succ.inj)
      rw [List.cons_append, escapeValue, escapeValue, if_pos hd, if_pos hd, hrun,
        hexLength_self hrest hle, List.take_left, List.take_length]

end IsCode

theorem isHexDigit_iff {c : Char} : isHexDigit c = true ↔
    (48 ≤ c.toNat ∧ c.toNat ≤ 57) ∨ (97 ≤ c.toNat ∧ c.toNat ≤ 102) ∨
      (65 ≤ c.toNat ∧ c.toNat ≤ 70) := by
  simp [isHexDigit, Char.isDigit, Char.le_def, UInt32.le_iff_toNat_le, or_assoc]

theorem isSpace_of_isHexDigit {c : Char} (h : isHexDigit c = true) : isSpace c = false := by
  rw [isHexDigit_iff] at h
  simp [isSpace]
  omega

theorem headIs_hexDigit_of_space {cs : List Char} (h : headIs isSpace cs = true) :
    headIs isHexDigit cs = false := by
  cases cs with
  | nil => cases h
  | cons c cs =>
      rw [headIs, Bool.eq_false_iff]
      intro hc
      rw [headIs, isSpace_of_isHexDigit hc] at h
      cases h

/-- An escape without its backslash, and the text behind it. -/
inductive Escape : (escape rest : List Char) → Prop where
  /-- A character that is no digit. -/
  | single {d : Char} {rest : List Char} : isHexDigit d = false → Escape [d] rest
  /-- Digits without a space behind them. -/
  | code {digits rest : List Char} : IsCode digits → Ends digits rest → headIs isSpace rest = false →
      Escape digits rest
  /-- Digits and the space that ends them. -/
  | spaced {digits rest : List Char} {c : Char} : IsCode digits → isSpace c = true →
      Escape (digits ++ [c]) rest

theorem Escape.ne_nil {escape rest : List Char} (h : Escape escape rest) : escape ≠ [] := by
  cases h with
  | single => simp
  | code hcode => exact hcode.ne_nil
  | spaced => simp

/-- An escape is as long as the reader takes it to be. -/
theorem Escape.length_eq {escape rest : List Char} (h : Escape escape rest) :
    escapeLength (escape ++ rest) = escape.length := by
  cases h with
  | single hd => exact if_neg (by rw [hd]; decide)
  | code hcode hend hspace => rw [hcode.escapeLength_append hend, hspace]; rfl
  | @spaced digits _ c hcode hc =>
      have hhead : headIs isSpace (c :: rest) = true := hc
      rw [List.append_assoc, List.singleton_append,
        hcode.escapeLength_append (.inr (headIs_hexDigit_of_space hhead)), hhead, List.length_append]
      rfl

/-- A text starts with a run of digits that is as long as it may be. -/
theorem exists_hexLength (n : Nat) (cs : List Char) :
    ∃ digits rest, cs = digits ++ rest ∧ digits.length ≤ n ∧ (∀ d ∈ digits, isHexDigit d = true) ∧
      (digits.length = n ∨ headIs isHexDigit rest = false) := by
  induction n generalizing cs with
  | zero => exact ⟨[], cs, rfl, Nat.le_refl 0, by simp, .inl rfl⟩
  | succ n ih =>
      cases cs with
      | nil => exact ⟨[], [], rfl, Nat.zero_le _, by simp, .inr rfl⟩
      | cons c cs =>
          cases hc : isHexDigit c with
          | false => exact ⟨[], c :: cs, rfl, Nat.zero_le _, by simp, .inr hc⟩
          | true =>
              obtain ⟨digits, rest, rfl, hlength, hdigits, hend⟩ := ih cs
              exact ⟨c :: digits, rest, rfl, Nat.succ_le_succ hlength,
                List.forall_mem_cons.2 ⟨hc, hdigits⟩, hend.imp_left (congrArg Nat.succ)⟩

/-- A text behind a backslash starts with an escape. -/
theorem exists_escape {cs : List Char} (hne : cs ≠ []) :
    ∃ escape rest, cs = escape ++ rest ∧ Escape escape rest := by
  cases cs with
  | nil => exact absurd rfl hne
  | cons c cs =>
      cases hc : isHexDigit c with
      | false => exact ⟨[c], cs, rfl, .single hc⟩
      | true =>
          obtain ⟨digits, rest, rfl, hlength, hdigits, hend⟩ := exists_hexLength 5 cs
          have hcode : IsCode (c :: digits) :=
            ⟨by simp, Nat.succ_le_succ hlength, List.forall_mem_cons.2 ⟨hc, hdigits⟩⟩
          have hends : Ends (c :: digits) rest := hend.imp_left (congrArg Nat.succ)
          cases hspace : headIs isSpace rest with
          | false => exact ⟨c :: digits, rest, rfl, .code hcode hends hspace⟩
          | true =>
              cases rest with
              | nil => cases hspace
              | cons x rest => exact ⟨(c :: digits) ++ [x], rest, by simp, .spaced hcode hspace⟩

/-! ## Names -/

/-- Does a name go on at a character? -/
def goesOn (c : Char) : Bool := c == '\\' || isNameChar c

/-- A text that stands for a name, with the text behind it. -/
inductive NameAt : (text rest name : List Char) → Prop where
  /-- The name ends where it does not go on. -/
  | stop {rest : List Char} : headIs goesOn rest = false → NameAt [] rest []
  /-- A character that stands for itself. -/
  | char {c : Char} {text rest name : List Char} : isNameChar c = true → NameAt text rest name →
      NameAt (c :: text) rest (c :: name)
  /-- An escape. -/
  | escape {escape text rest name : List Char} : Escape escape (text ++ rest) →
      NameAt text rest name →
      NameAt ('\\' :: (escape ++ text)) rest (escapeValue (escape ++ (text ++ rest)) :: name)

/-- What is read as a name stands for it. -/
theorem nameAt_of_nameFrom {skip : Nat} {cs name : List Char} {n : Nat} (hskip : skip ≤ cs.length)
    (h : nameFrom skip cs = .ok (name, n)) :
    ∃ passed text rest, cs = passed ++ (text ++ rest) ∧ passed.length = skip ∧
      n = skip + text.length ∧ NameAt text rest name := by
  induction cs generalizing skip name n with
  | nil =>
      obtain rfl : skip = 0 := Nat.eq_zero_of_le_zero hskip
      cases h
      exact ⟨[], [], [], rfl, rfl, rfl, .stop rfl⟩
  | cons c cs ih =>
      cases skip with
      | succ skip =>
          obtain ⟨⟨found, m⟩, hfound, hpair⟩ := exists_of_bind_pure h
          cases hpair
          obtain ⟨passed, text, rest, rfl, hlength, rfl, hat⟩ := ih (Nat.le_of_succ_le_succ hskip) hfound
          exact ⟨c :: passed, text, rest, rfl, congrArg Nat.succ hlength, by omega, hat⟩
      | zero =>
          rw [nameFrom] at h
          split at h
          · next hc =>
              split at h
              · cases h
              · next hcs =>
                  have hne : cs ≠ [] := by simpa using hcs
                  obtain ⟨⟨found, m⟩, hfound, hpair⟩ := exists_of_bind_pure h
                  cases hpair
                  obtain ⟨escape, after, rfl, hescape⟩ := exists_escape hne
                  rw [hescape.length_eq] at hfound
                  obtain ⟨passed, text, rest, hcs, hlength, rfl, hat⟩ := ih (by simp) hfound
                  obtain ⟨rfl, rfl⟩ := List.append_inj hcs hlength.symm
                  obtain rfl : c = '\\' := beq_iff_eq.1 hc
                  refine ⟨[], '\\' :: (escape ++ text), rest, by simp, rfl, ?_, .escape hescape hat⟩
                  rw [List.length_cons, List.length_append]
                  omega
          · next hc =>
              split at h
              · next hchar =>
                  obtain ⟨⟨found, m⟩, hfound, hpair⟩ := exists_of_bind_pure h
                  cases hpair
                  obtain ⟨passed, text, rest, rfl, hlength, rfl, hat⟩ := ih (Nat.zero_le _) hfound
                  obtain rfl : passed = [] := List.length_eq_zero_iff.1 hlength
                  exact ⟨[], c :: text, rest, rfl, rfl, by simp, .char hchar hat⟩
              · next hchar =>
                  cases h
                  refine ⟨[], [], c :: cs, rfl, rfl, rfl, .stop ?_⟩
                  exact Bool.or_eq_false_iff.2 ⟨Bool.eq_false_iff.2 hc, Bool.eq_false_iff.2 hchar⟩

theorem nameFrom_of_stop {cs : List Char} (h : headIs goesOn cs = false) :
    nameFrom 0 cs = .ok ([], 0) := by
  cases cs with
  | nil => rfl
  | cons c cs =>
      obtain ⟨hback, hchar⟩ := Bool.or_eq_false_iff.1 h
      rw [nameFrom, if_neg (by rw [hback]; decide), if_neg (by rw [hchar]; decide)]

/-- The characters of an escape that has been resolved are passed over. -/
theorem nameFrom_skip {passed cs name : List Char} {n : Nat} (h : nameFrom 0 cs = .ok (name, n)) :
    nameFrom passed.length (passed ++ cs) = .ok (name, passed.length + n) := by
  induction passed with
  | nil => simpa using h
  | cons c passed ih =>
      rw [List.length_cons, List.cons_append, nameFrom, ih]
      exact congrArg (fun m => Except.ok (name, m)) (by omega)

theorem nameFrom_char {c : Char} (hc : isNameChar c = true) {cs name : List Char} {n : Nat}
    (h : nameFrom 0 cs = .ok (name, n)) : nameFrom 0 (c :: cs) = .ok (c :: name, 1 + n) := by
  have hne : c ≠ '\\' := by
    rintro rfl
    cases hc
  rw [nameFrom, if_neg (by simpa using hne), if_pos hc, h, Nat.add_comm]
  rfl

/-- An escape stands for one character. -/
theorem nameFrom_escape {escape cs name : List Char} {n : Nat} (hescape : Escape escape cs)
    (h : nameFrom 0 cs = .ok (name, n)) :
    nameFrom 0 ('\\' :: (escape ++ cs)) =
      .ok (escapeValue (escape ++ cs) :: name, 1 + escape.length + n) := by
  rw [nameFrom, if_pos (by decide), if_neg (by simp [hescape.ne_nil]), hescape.length_eq,
    nameFrom_skip h]
  exact congrArg (fun m => Except.ok (_, m)) (by omega)

/-- What stands for a name is read as it. -/
theorem NameAt.reads {text rest name : List Char} (h : NameAt text rest name) :
    nameFrom 0 (text ++ rest) = .ok (name, text.length) := by
  induction h with
  | stop hstop => exact nameFrom_of_stop hstop
  | char hchar _ ih => rw [List.cons_append, nameFrom_char hchar ih, List.length_cons, Nat.add_comm]
  | @escape escape text rest name hescape _ ih =>
      rw [List.cons_append, List.append_assoc, nameFrom_escape hescape ih, List.length_cons,
        List.length_append, Nat.add_comm 1, Nat.add_right_comm]

theorem NameAt.stops {text rest name : List Char} (h : NameAt text rest name) :
    headIs goesOn rest = false := by
  induction h with
  | stop hstop => exact hstop
  | char _ _ ih => exact ih
  | escape _ _ ih => exact ih

theorem NameAt.ne_nil {text rest name : List Char} (h : NameAt text rest name) (hname : name ≠ []) :
    text ≠ [] := by
  cases h with
  | stop => exact absurd rfl hname
  | char => simp
  | escape => simp

theorem ne_backslash_of_isNameChar {c : Char} (hc : isNameChar c = true) : (c == '\\') = false := by
  rw [beq_eq_false_iff_ne]
  rintro rfl
  cases hc

/-- The name after a mark is a name. -/
theorem nameFrom_of_nameAfter {mark : Char} {cs name : List Char} {n : Nat}
    (h : nameAfter mark cs = .ok (name, n)) : nameFrom 0 cs = .ok (name, n) := by
  rw [nameAfter] at h
  cases hname : nameFrom 0 cs with
  | error e =>
      rw [hname] at h
      cases h
  | ok found =>
      rw [hname] at h
      dsimp only [bind, Except.bind] at h
      split at h
      · cases h
      · cases h
        rfl

/-- The name after a mark is not empty. -/
theorem nameAt_of_nameAfter {mark : Char} {cs name : List Char} {n : Nat}
    (h : nameAfter mark cs = .ok (name, n)) :
    ∃ text rest, cs = text ++ rest ∧ text.length = n ∧ text ≠ [] ∧ name ≠ [] ∧
      NameAt text rest name := by
  obtain ⟨passed, text, rest, rfl, hpassed, rfl, hat⟩ :=
    nameAt_of_nameFrom (Nat.zero_le _) (nameFrom_of_nameAfter h)
  obtain rfl : passed = [] := List.length_eq_zero_iff.1 hpassed
  have hname : name ≠ [] := by
    rintro rfl
    rw [List.nil_append, nameAfter, hat.reads] at h
    cases h
  exact ⟨text, rest, rfl, (Nat.zero_add _).symm, hat.ne_nil hname, hname, hat⟩

theorem NameAt.nameAfter_eq {text rest name : List Char} (h : NameAt text rest name)
    (hname : name ≠ []) (mark : Char) :
    nameAfter mark (text ++ rest) = .ok (name, text.length) := by
  rw [nameAfter, h.reads]
  simp only [bind, Except.bind, pure, Except.pure, List.isEmpty_eq_false_iff.2 hname,
    Bool.false_eq_true, if_false]

/-! ## Tags -/

theorem goesOn_of_startsTag {c : Char} (h : startsTag c = true) : goesOn c = true := by
  simp only [startsTag, Bool.or_eq_true] at h
  simp only [goesOn, isNameChar, Char.isAlphanum, Bool.or_eq_true]
  grind

/-- The name of a tag is not empty. -/
theorem pos_of_nameFrom {c : Char} {cs name : List Char} {n : Nat} (hc : startsTag c = true)
    (h : nameFrom 0 (c :: cs) = .ok (name, n)) : 0 < n := by
  rw [nameFrom] at h
  split at h
  · split at h
    · cases h
    · obtain ⟨found, _, hfound⟩ := exists_of_bind_pure h
      cases hfound
      exact Nat.succ_pos _
  · next hback =>
      have hname : isNameChar c = true := by
        simp only [startsTag, Bool.or_eq_true] at hc
        simp only [isNameChar, Char.isAlphanum, Bool.or_eq_true]
        grind
      rw [if_pos hname] at h
      obtain ⟨found, _, hfound⟩ := exists_of_bind_pure h
      cases hfound
      exact Nat.succ_pos _

section Tags

variable {nested : ListReader} {c : Char} {cs : List Char} {part : Part} {n : Nat}

theorem startsTag_of_goesOn {nested : ListReader} {c : Char} {cs : List Char} {part : Part} {n : Nat}
    (h : readPart nested c cs = .ok (part, n)) (hc : goesOn c = true) : startsTag c = true := by
  rw [readPart.eq_def] at h
  split at h
  all_goals first | exact absurd hc (by decide) | skip
  split at h
  · next hc => exact hc
  · cases h

theorem readPart_tag (hc : startsTag c = true) : readPart nested c cs = do
    let (name, n) ← nameFrom 0 (c :: cs)
    return (.tag (.ofList (lower name)), n - 1) := by
  rw [readPart.eq_def]
  split
  all_goals first | exact absurd hc (by decide) | exact if_pos hc

theorem exists_of_readPart_tag (hc : startsTag c = true) (h : readPart nested c cs = .ok (part, n)) :
    ∃ text rest name, cs = text ++ rest ∧ text.length = n ∧ NameAt (c :: text) rest name ∧
      part = .tag (.ofList (lower name)) := by
  rw [readPart_tag hc] at h
  obtain ⟨⟨name, m⟩, hname, hpart⟩ := exists_of_bind_pure h
  cases hpart
  obtain ⟨passed, text, rest, hcs, hpassed, rfl, hat⟩ := nameAt_of_nameFrom (Nat.zero_le _) hname
  obtain rfl : passed = [] := List.length_eq_zero_iff.1 hpassed
  have hpos := pos_of_nameFrom hc hname
  cases text with
  | nil => exact absurd hpos (by simp)
  | cons d text =>
      obtain ⟨rfl, rfl⟩ := List.cons.inj hcs
      exact ⟨text, rest, name, rfl, by simp, hat, rfl⟩

end Tags

/-! ## Pseudo-classes -/

/-- The part that a pseudo-class with an argument is read as. -/
def argumentPart (nested : ListReader) (name : String) (argument : List Char) : Except Error Part :=
  if !listPseudos.contains name then return .pseudo name (some (.ofList (trim argument)))
  else if Text.isBlank argument then return .functional name []
  else do return .functional name (← nested argument)

/-- What follows the name of a pseudo-class, whose colons and name take `n` characters. -/
def readArgument (nested : ListReader) (name : String) (n : Nat) :
    List Char → Except Error (Part × Nat)
  | '(' :: cs => do
      let argument ← untilClose '(' ')' 0 none cs
      let part ← argumentPart nested name argument
      return (part, n + argument.length + 2)
  | _ => return (.pseudo name none, n)

theorem readArgument_of_head {nested : ListReader} {name : String} {n : Nat} {cs : List Char}
    (h : headIs (· == '(') cs = false) :
    readArgument nested name n cs = .ok (.pseudo name none, n) := by
  cases cs with
  | nil => rfl
  | cons c cs =>
      have hc : c ≠ '(' := by simpa [headIs] using h
      rw [readArgument.eq_2 _ _ _ _ fun ds hds => hc (List.cons.inj hds).1]
      rfl

theorem exists_of_readArgument {nested : ListReader} {name : String} {m n : Nat} {cs : List Char}
    {part : Part} (h : readArgument nested name m ('(' :: cs) = .ok (part, n)) :
    ∃ argument, untilClose '(' ')' 0 none cs = .ok argument ∧
      argumentPart nested name argument = .ok part ∧ n = m + argument.length + 2 := by
  rw [readArgument] at h
  cases hargument : untilClose '(' ')' 0 none cs with
  | error e =>
      rw [hargument] at h
      cases h
  | ok argument =>
      rw [hargument] at h
      obtain ⟨found, hpart, hfound⟩ := exists_of_bind_pure h
      cases hfound
      exact ⟨argument, rfl, hpart, rfl⟩

theorem readPseudo_eq {nested : ListReader} {marks text rest name : List Char}
    (hmarks : marks = [] ∨ marks = [':']) (hat : NameAt text rest name) (hname : name ≠ []) :
    readPseudo nested (marks ++ (text ++ rest)) =
      readArgument nested (.ofList (lower name)) (marks ++ text).length rest := by
  have hmark : (if headIs (· == ':') (marks ++ (text ++ rest)) then 1 else 0) = marks.length := by
    rcases hmarks with rfl | rfl
    · cases hat with
      | stop => exact absurd rfl hname
      | @char c _ _ _ hchar _ =>
          have hc : (c == ':') = false := by
            rw [beq_eq_false_iff_ne]
            rintro rfl
            cases hchar
          rw [List.nil_append, List.cons_append, headIs, hc]
          rfl
      | escape => rfl
    · rfl
  have hdrop : (marks ++ (text ++ rest)).drop (marks.length + text.length) = rest := by
    rw [← List.length_append, ← List.append_assoc, List.drop_left]
  rw [readPseudo, hmark, List.drop_left, hat.nameAfter_eq hname]
  simp only [bind, Except.bind, hdrop]
  split
  · rw [readArgument, List.length_append]
    simp only [argumentPart, bind, Except.bind]
    cases untilClose '(' ')' 0 none _ with
    | error e => rfl
    | ok inside =>
        dsimp only
        split
        · rfl
        split
        · rfl
        · cases nested inside with
          | error e => rfl
          | ok branches => rfl
  · next hrest =>
      rw [readArgument.eq_2 _ _ _ _ hrest, List.length_append]

/-- Behind the colon of a pseudo-class there may be a second one. -/
theorem exists_marks (cs : List Char) :
    ∃ marks rest, cs = marks ++ rest ∧ (marks = [] ∨ marks = [':']) ∧
      (if headIs (· == ':') cs then 1 else 0) = marks.length := by
  cases cs with
  | nil => exact ⟨[], [], rfl, .inl rfl, rfl⟩
  | cons c cs =>
      cases hc : c == ':' with
      | true => exact ⟨[':'], cs, by rw [beq_iff_eq.1 hc]; rfl, .inr rfl, by rw [headIs, hc]; rfl⟩
      | false => exact ⟨[], c :: cs, rfl, .inl rfl, by rw [headIs, hc]; rfl⟩

/-- A pseudo-class has a name behind one or two colons. -/
theorem exists_of_readPseudo {nested : ListReader} {cs : List Char} {part : Part} {n : Nat}
    (h : readPseudo nested cs = .ok (part, n)) :
    ∃ marks text rest name, cs = marks ++ (text ++ rest) ∧ (marks = [] ∨ marks = [':']) ∧
      text ≠ [] ∧ name ≠ [] ∧ NameAt text rest name := by
  obtain ⟨marks, rest, rfl, hmarks, hlength⟩ := exists_marks cs
  rw [readPseudo, hlength, List.drop_left] at h
  cases hname : nameAfter ':' rest with
  | error e =>
      rw [hname] at h
      cases h
  | ok found =>
      obtain ⟨text, after, rfl, -, hne, hnamene, hat⟩ := nameAt_of_nameAfter hname
      exact ⟨marks, text, after, found.1, rfl, hmarks, hne, hnamene, hat⟩

/-! ## The rest of a branch -/

theorem readParts_drop (nested : ListReader) (last : Last) (spaced : Bool) (skip : Nat)
    (cs : List Char) :
    readParts nested last spaced skip cs = readParts nested last spaced 0 (cs.drop skip) := by
  induction cs generalizing skip with
  | nil => simp [readParts]
  | cons c cs ih =>
      cases skip with
      | zero => rfl
      | succ skip => exact ih skip

/-- The combinator that spaces write. -/
def descendantIf (spaced : Bool) (last : Last) : List Part :=
  if spaced && last == .simple then [.combinator .descendant] else []

theorem eq_of_mem_descendantIf {spaced : Bool} {last : Last} {part : Part}
    (h : part ∈ descendantIf spaced last) : part = .combinator .descendant := by
  rw [descendantIf] at h
  split at h
  · exact List.mem_singleton.1 h
  · exact absurd h List.not_mem_nil

section Rest

variable {nested : ListReader} {last : Last} {spaced : Bool} {c : Char} {cs : List Char}

theorem readParts_space (hc : isSpace c = true) :
    readParts nested last spaced 0 (c :: cs) = readParts nested last true 0 cs := by
  rw [readParts, if_pos hc]

theorem readParts_combinator (hc : isSpace c = false) {kind : Combinator}
    (hkind : combinator? c = some kind) {parts : List Part}
    (h : readParts nested .combinator false 0 cs = .ok parts) :
    readParts nested last spaced 0 (c :: cs) = .ok (.combinator kind :: parts) := by
  rw [readParts, if_neg (by rw [hc]; decide), hkind]
  dsimp only
  rw [h]
  rfl

theorem readParts_part (hc : isSpace c = false) (hkind : combinator? c = none) {part : Part}
    {n : Nat} (hpart : readPart nested c cs = .ok (part, n)) {parts : List Part}
    (h : readParts nested .simple false 0 (cs.drop n) = .ok parts) :
    readParts nested last spaced 0 (c :: cs) =
      .ok (descendantIf spaced last ++ part :: parts) := by
  rw [readParts, if_neg (by rw [hc]; decide), hkind, hpart]
  simp only [bind, Except.bind]
  rw [readParts_drop, h, descendantIf]
  dsimp only
  split
  · rfl
  · rfl

/-- A rest that can be read starts with a space, a combinator or a part. -/
theorem readParts_cases {parts : List Part}
    (h : readParts nested last spaced 0 (c :: cs) = .ok parts) :
    (isSpace c = true ∧ readParts nested last true 0 cs = .ok parts) ∨
    (isSpace c = false ∧ ∃ kind rest, combinator? c = some kind ∧
      readParts nested .combinator false 0 cs = .ok rest ∧ parts = .combinator kind :: rest) ∨
    (isSpace c = false ∧ combinator? c = none ∧ ∃ part n rest, readPart nested c cs = .ok (part, n) ∧
      readParts nested .simple false 0 (cs.drop n) = .ok rest ∧
      parts = descendantIf spaced last ++ part :: rest) := by
  cases hc : isSpace c with
  | true =>
      rw [readParts_space hc] at h
      exact .inl ⟨rfl, h⟩
  | false =>
      cases hkind : combinator? c with
      | some kind =>
          rw [readParts, if_neg (by rw [hc]; decide), hkind] at h
          obtain ⟨rest, hrest, rfl⟩ := exists_of_bind_pure h
          exact .inr (.inl ⟨rfl, kind, rest, rfl, hrest, rfl⟩)
      | none =>
          cases hpart : readPart nested c cs with
          | error e =>
              rw [readParts, if_neg (by rw [hc]; decide), hkind, hpart] at h
              cases h
          | ok found =>
              cases hrest : readParts nested .simple false 0 (cs.drop found.2) with
              | error e =>
                  rw [readParts, if_neg (by rw [hc]; decide), hkind, hpart] at h
                  simp only [bind, Except.bind] at h
                  rw [readParts_drop, hrest] at h
                  cases h
              | ok rest =>
                  rw [readParts_part hc hkind hpart hrest] at h
                  cases h
                  exact .inr (.inr ⟨rfl, rfl, _, _, rest, rfl, hrest, rfl⟩)

end Rest

/-- How the rest of a branch is read, after its last part and perhaps after spaces. -/
inductive Run (nested : ListReader) : Last → Bool → List Char → List Part → Prop where
  /-- Nothing more comes. -/
  | stop {spaced : Bool} : Run nested .simple spaced [] []
  /-- A space. -/
  | space {last : Last} {spaced : Bool} {c : Char} {cs : List Char} {parts : List Part} :
      isSpace c = true → Run nested last true cs parts → Run nested last spaced (c :: cs) parts
  /-- A combinator that is written. -/
  | combinator {last : Last} {spaced : Bool} {c : Char} {cs : List Char} {kind : Combinator}
      {parts : List Part} : isSpace c = false → combinator? c = some kind →
      Run nested .combinator false cs parts →
      Run nested last spaced (c :: cs) (.combinator kind :: parts)
  /-- Any other part, after a combinator if there were spaces. -/
  | part {last : Last} {spaced : Bool} {c : Char} {cs : List Char} {part : Part} {n : Nat}
      {parts : List Part} : isSpace c = false → combinator? c = none →
      readPart nested c cs = .ok (part, n) → Run nested .simple false (cs.drop n) parts →
      Run nested last spaced (c :: cs) (descendantIf spaced last ++ part :: parts)

/-- What can be read is read in a run. -/
theorem run_of_readParts {nested : ListReader} {last : Last} {spaced : Bool} {cs : List Char}
    {parts : List Part} (h : readParts nested last spaced 0 cs = .ok parts) :
    Run nested last spaced cs parts := by
  induction hlength : cs.length using Nat.strong_induction_on generalizing last spaced cs parts with
  | _ length ih =>
      subst hlength
      cases cs with
      | nil =>
          cases last with
          | none => cases h
          | combinator => cases h
          | simple =>
              cases h
              exact .stop
      | cons c cs =>
          obtain ⟨hc, hrest⟩ | ⟨hc, kind, rest, hkind, hrest, rfl⟩ |
            ⟨hc, hkind, part, n, rest, hpart, hrest, rfl⟩ := readParts_cases h
          · exact .space hc (ih _ (Nat.lt_succ_self _) hrest rfl)
          · exact .combinator hc hkind (ih _ (Nat.lt_succ_self _) hrest rfl)
          · refine .part hc hkind hpart (ih _ ?_ hrest rfl)
            rw [List.length_drop, List.length_cons]
            omega

theorem head_of_readParts {nested : ListReader} {spaced : Bool} {cs : List Char} {parts : List Part}
    (h : readParts nested .simple spaced 0 cs = .ok parts) : headIs (· == '(') cs = false := by
  cases cs with
  | nil => rfl
  | cons c cs =>
      rw [headIs, beq_eq_false_iff_ne]
      rintro rfl
      cases h

theorem combinator?_cases {c : Char} {kind : Combinator} (h : combinator? c = some kind) :
    c = '>' ∨ c = '+' ∨ c = '~' := by
  rw [combinator?.eq_def] at h
  split at h
  · exact .inl rfl
  · exact .inr (.inl rfl)
  · exact .inr (.inr rfl)
  · cases h

end Stylesheet.Selector
