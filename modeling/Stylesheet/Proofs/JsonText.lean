import Mathlib.Data.Option.Basic
import Stylesheet.Json.Reader

/-!
# JSON that was written is read back

`Json.render` writes a value, and `Json.ofText?` reads it.  The way back has two halves, as reading has.

* *Tokens.*  Each string, number and word is read up to its end and not further.  A string ends at its
  quote.  A number ends where no more digits come, and behind a value there is nothing or one of the three
  characters that end it (`Stops`).  So the tokens of a text that was written are those of the value
  (`tokensFrom_renderChars`).
* *Values.*  The tokens of a value take the reader from a place where a value may stand to the place behind
  it, with the same containers open (`readFrom_tokensOf`).

Nothing is asked of the value: `unpaired` is written as half of a surrogate pair, which is read as
`unpaired` again, and a number keeps its digits and its exponent.
-/

namespace Stylesheet.Json

open Stylesheet.Text (headIs hexNumber isHexDigit scalar?)

/-! ## Strings -/

theorem scalar?_toNat (c : Char) : scalar? c.toNat = some c := by
  have hvalid : c.toNat.isValidChar := c.valid
  rw [scalar?, if_pos hvalid, Char.ofNat_toNat]

/-- No character is half of a surrogate pair. -/
theorem isHighSurrogate_toNat (c : Char) : isHighSurrogate c.toNat = false := by
  have hvalid : c.toNat.isValidChar := c.valid
  rw [isHighSurrogate, Bool.and_eq_false_iff, decide_eq_false_iff_not, decide_eq_false_iff_not]
  rcases hvalid with hlow | ⟨hhigh, -⟩
  · exact .inl (by omega)
  · exact .inr (by omega)

theorem textFrom_map_toNat (cs : List Char) : textFrom none (cs.map Char.toNat) = some cs := by
  induction cs with
  | nil => rfl
  | cons c cs ih =>
      rw [List.map_cons, textFrom]
      simp [isHighSurrogate_toNat, scalar?_toNat, ih]

theorem ofUnits_map_toNat (s : String) : ofUnits (s.toList.map Char.toNat) = .string s := by
  rw [ofUnits, textFrom_map_toNat]
  simp

/-- The characters of an escape are counted and passed over. -/
theorem unitsFrom_skip (passed rest : List Char) :
    unitsFrom passed.length (passed ++ rest) =
      (unitsFrom 0 rest).map fun (units, n) => (units, n + passed.length) := by
  induction passed with
  | nil => simp
  | cons c passed ih =>
      rw [List.length_cons, List.cons_append, unitsFrom, ih]
      cases unitsFrom 0 rest with
      | none => rfl
      | some found => rfl

theorem unitsFrom_escape (escape : List Char) {rest : List Char} {unit : Nat}
    (h : escape? (escape ++ rest) = some (unit, escape.length)) :
    unitsFrom 0 ('\\' :: (escape ++ rest)) =
      (unitsFrom 0 rest).map fun (units, n) => (unit :: units, n + (escape.length + 1)) := by
  have hquote : ('\\' == '"') = false := by decide
  have hcontrol : ¬ '\\'.toNat < 0x20 := by decide
  rw [unitsFrom, hquote, if_neg Bool.false_ne_true, if_neg hcontrol, if_pos (by decide), h]
  simp only [Option.bind_eq_bind, Option.bind_some]
  rw [unitsFrom_skip]
  cases unitsFrom 0 rest with
  | none => rfl
  | some found => rfl

theorem escape?_digits {digits : List Char} (hlength : digits.length = 4)
    (hall : digits.all isHexDigit = true) (rest : List Char) :
    escape? ('u' :: (digits ++ rest)) = some (hexNumber digits, 5) := by
  have htake : (digits ++ rest).take 4 = digits := by
    rw [List.take_append_of_le_length (by omega), List.take_of_length_le (by omega)]
  simp [escape?, htake, hlength, hall]

/-- The digits of a control character are its number. -/
theorem hexNumber_control : ∀ n < 0x20,
    (['0', '0', Nat.digitChar (n / 16), Nat.digitChar (n % 16)].all isHexDigit) = true ∧
      hexNumber ['0', '0', Nat.digitChar (n / 16), Nat.digitChar (n % 16)] = n := by
  decide

theorem unitsFrom_renderChar (c : Char) (rest : List Char) :
    unitsFrom 0 (renderChar c ++ rest) =
      (unitsFrom 0 rest).map fun (units, n) => (c.toNat :: units, n + (renderChar c).length) := by
  rw [renderChar]
  split
  · next hc =>
      rw [beq_iff_eq.1 hc]
      exact unitsFrom_escape ['"'] rfl
  next hquote =>
  split
  · next hc =>
      rw [beq_iff_eq.1 hc]
      exact unitsFrom_escape ['\\'] rfl
  next hbackslash =>
  split
  · next hcontrol =>
      obtain ⟨hdigits, hnumber⟩ := hexNumber_control c.toNat hcontrol
      have hescape := escape?_digits rfl hdigits rest
      rw [hnumber] at hescape
      exact unitsFrom_escape
        ['u', '0', '0', Nat.digitChar (c.toNat / 16), Nat.digitChar (c.toNat % 16)] hescape
  · next hcontrol =>
      rw [List.singleton_append, unitsFrom, if_neg hquote, if_neg hcontrol, if_neg hbackslash]
      cases unitsFrom 0 rest with
      | none => rfl
      | some found => rfl

/-- The characters of a string up to its closing quote are read. -/
theorem unitsFrom_quoted (cs rest : List Char) :
    unitsFrom 0 (cs.flatMap renderChar ++ '"' :: rest) =
      some (cs.map Char.toNat, (cs.flatMap renderChar).length + 1) := by
  induction cs with
  | nil => rfl
  | cons c cs ih =>
      rw [List.flatMap_cons, List.append_assoc, unitsFrom_renderChar, ih, List.length_append]
      simp only [Option.map_some, List.map_cons, Option.some.injEq, Prod.mk.injEq, true_and]
      omega

/-! ## Numbers -/

/-- What may stand behind a value: nothing, or a character that ends it. -/
def Stops (rest : List Char) : Prop := ∀ c ∈ rest.head?, c ∈ [',', ']', '\x7d']

theorem stops_nil : Stops [] := fun _ h => nomatch h

theorem stops_cons {c : Char} (h : c ∈ [',', ']', '\x7d']) (rest : List Char) :
    Stops (c :: rest) := by
  intro d hd
  obtain rfl : c = d := Option.some.inj hd
  exact h

/-- What ends a value is in no class that goes on with it. -/
theorem Stops.headIs_eq_false {rest : List Char} (h : Stops rest) {p : Char → Bool}
    (hp : [',', ']', '\x7d'].all (fun c => !p c) = true) : headIs p rest = false := by
  cases rest with
  | nil => rfl
  | cons c rest =>
      have hc := List.all_eq_true.1 hp c (h c rfl)
      rwa [Bool.not_eq_true'] at hc

theorem takeWhile_append {p : Char → Bool} {cs rest : List Char} (hcs : ∀ c ∈ cs, p c = true)
    (hrest : headIs p rest = false) : (cs ++ rest).takeWhile p = cs := by
  rw [List.takeWhile_append_of_pos hcs]
  cases rest with
  | nil => simp
  | cons c rest =>
      have hc : p c = false := hrest
      rw [List.takeWhile_cons_of_neg (by rw [hc]; exact Bool.false_ne_true), List.append_nil]

/-! ### Digits -/

theorem isDigit_of_mem_toDigits {n : Nat} {c : Char} (h : c ∈ Nat.toDigits 10 n) :
    c.isDigit = true :=
  Nat.isDigit_of_mem_toDigits (by decide) (by decide) h

theorem decimalNumber_toDigits (n : Nat) : decimalNumber (Nat.toDigits 10 n) = n := by
  have hfold : decimalNumber (Nat.toDigits 10 n) = Nat.ofDigitChars 10 (Nat.toDigits 10 n) 0 := by
    rw [Nat.ofDigitChars_eq_foldl, decimalNumber]
    simp only [Nat.mul_comm]
  rw [hfold, Nat.ofDigitChars_ten_toDigits]

/-- Only zero is written with a zero in front. -/
theorem headIs_zero_toDigits {n : Nat} (h : 0 < n) :
    headIs (· == '0') (Nat.toDigits 10 n) = false := by
  induction n using Nat.strongRecOn with
  | ind n ih =>
      rw [Nat.toDigits_eq_if (by decide)]
      split
      · next hlt =>
          rw [headIs, beq_eq_false_iff_ne, ne_eq, Nat.digitChar_eq_zero]
          omega
      · next hge =>
          have hfront := ih (n / 10) (by omega) (by omega)
          cases hdigits : Nat.toDigits 10 (n / 10) with
          | nil => exact absurd hdigits Nat.toDigits_ne_nil
          | cons d ds =>
              rw [hdigits] at hfront
              exact hfront

/-- The digits of a number are taken, and nothing behind them. -/
theorem wholeDigits_toDigits (n : Nat) {rest : List Char} (hrest : headIs Char.isDigit rest = false) :
    wholeDigits (Nat.toDigits 10 n ++ rest) = Nat.toDigits 10 n := by
  rcases Nat.eq_zero_or_pos n with rfl | hpos
  · rfl
  · have hhead : headIs (· == '0') (Nat.toDigits 10 n ++ rest) = false := by
      have hzero := headIs_zero_toDigits hpos
      cases hdigits : Nat.toDigits 10 n with
      | nil => exact absurd hdigits Nat.toDigits_ne_nil
      | cons d ds =>
          rw [hdigits] at hzero
          exact hzero
    rw [wholeDigits, hhead, if_neg Bool.false_ne_true,
      takeWhile_append (fun c => isDigit_of_mem_toDigits) hrest]

/-- A number without its sign starts with a digit. -/
theorem headIs_toDigits_append {p : Char → Bool} (hp : ∀ c, c.isDigit = true → p c = false)
    (n : Nat) (rest : List Char) : headIs p (Nat.toDigits 10 n ++ rest) = false := by
  cases hdigits : Nat.toDigits 10 n with
  | nil => exact absurd hdigits Nat.toDigits_ne_nil
  | cons d ds => exact hp d (isDigit_of_mem_toDigits (n := n) (by rw [hdigits]; simp))

theorem beq_eq_false_of_isDigit {c d : Char} (hd : d.isDigit = false) (hc : c.isDigit = true) :
    (c == d) = false := by
  rw [beq_eq_false_iff_ne]
  rintro rfl
  rw [hd] at hc
  cases hc

/-- The sign of an integer is found, and then its digits. -/
theorem sign_renderInt (n : Int) (rest : List Char) :
    headIs (· == '-') (renderInt n ++ rest) = decide (n < 0) ∧
      headIs (· == '+') (renderInt n ++ rest) = false ∧
      (renderInt n ++ rest).drop (if n < 0 then 1 else 0) = Nat.toDigits 10 n.natAbs ++ rest ∧
      (renderInt n).length = (if n < 0 then 1 else 0) + (Nat.toDigits 10 n.natAbs).length := by
  rw [renderInt]
  split
  · next hneg =>
      refine ⟨(decide_eq_true hneg).symm, rfl, rfl, ?_⟩
      rw [List.length_cons]
      omega
  · next hpos =>
      rw [decide_eq_false hpos]
      exact ⟨headIs_toDigits_append (fun c => beq_eq_false_of_isDigit (by decide)) _ _,
        headIs_toDigits_append (fun c => beq_eq_false_of_isDigit (by decide)) _ _, rfl,
        (Nat.zero_add _).symm⟩

theorem natAbs_with_sign (n : Int) : (if n < 0 then -(n.natAbs : Int) else n.natAbs) = n := by
  split
  · omega
  · omega

/-- An exponent that was written is read. -/
theorem exponent?_renderInt (e : Int) {rest : List Char}
    (hrest : headIs Char.isDigit rest = false) :
    exponent? ('e' :: (renderInt e ++ rest)) = some (e, (renderInt e).length + 1) := by
  obtain ⟨hminus, hplus, hdrop, hlength⟩ := sign_renderInt e rest
  have htake : (Nat.toDigits 10 e.natAbs ++ rest).takeWhile Char.isDigit =
      Nat.toDigits 10 e.natAbs := takeWhile_append (fun c => isDigit_of_mem_toDigits) hrest
  have hvalue := natAbs_with_sign e
  simp only [exponent?, hminus, hplus, Bool.or_false, decide_eq_true_eq, hdrop, htake,
    decimalNumber_toDigits, List.isEmpty_iff, Nat.toDigits_ne_nil, if_false]
  rw [if_pos (by decide), hvalue, hlength]
  congr 2
  omega

theorem fraction?_of_head {cs : List Char} (h : headIs (· == '.') cs = false) :
    fraction? cs = some [] := by
  unfold fraction?
  split
  · cases h
  · rfl

/-- An integer that was written is read, whatever exponent comes behind it. -/
theorem number?_renderInt (m : Int) {tail : List Char} {e : Int} {n : Nat}
    (hdigit : headIs Char.isDigit tail = false) (hpoint : headIs (· == '.') tail = false)
    (hexponent : exponent? tail = some (e, n)) :
    number? (renderInt m ++ tail) = some (.number m e, (renderInt m).length + n) := by
  obtain ⟨hminus, -, hdrop, hlength⟩ := sign_renderInt m tail
  have hwhole := wholeDigits_toDigits m.natAbs hdigit
  have hrest : (renderInt m ++ tail).drop
      ((if m < 0 then 1 else 0) + (Nat.toDigits 10 m.natAbs).length) = tail := by
    rw [← List.drop_drop, hdrop, List.drop_left]
  have hvalue := natAbs_with_sign m
  simp only [number?, hminus, decide_eq_true_eq, hdrop, hwhole, List.isEmpty_iff,
    Nat.toDigits_ne_nil, if_false, hrest, fraction?_of_head hpoint]
  have hsign : ((if m < 0 then 1 else 0) == 1) = decide (m < 0) := by
    split
    · next hneg => exact (decide_eq_true hneg).symm
    · next hpos => exact (decide_eq_false hpos).symm
  simp only [Option.bind_eq_bind, Option.bind_some, if_true, List.length_nil, Nat.add_zero, hrest,
    hexponent, List.append_nil, decimalNumber_toDigits, hsign, decide_eq_true_eq, hvalue, hlength]
  simp

theorem number?_renderNumber (m e : Int) {rest : List Char} (hrest : Stops rest) :
    number? (renderNumber m e ++ rest) = some (.number m e, (renderNumber m e).length) := by
  rw [renderNumber]
  split
  · next hzero =>
      subst hzero
      have hexponent : exponent? rest = some (0, 0) := by
        cases rest with
        | nil => rfl
        | cons c rest =>
            have hc : (c == 'e' || c == 'E') = false :=
              hrest.headIs_eq_false (p := fun c => c == 'e' || c == 'E') (by decide)
            rw [exponent?, hc, if_neg Bool.false_ne_true]
      exact number?_renderInt m (hrest.headIs_eq_false (by decide))
        (hrest.headIs_eq_false (by decide)) hexponent
  · rw [List.append_assoc, List.cons_append, List.length_append]
    exact number?_renderInt m rfl rfl
      (exponent?_renderInt e (hrest.headIs_eq_false (by decide)))

/-! ## Tokens -/

/-- The string that a key is written as. -/
def ofKey (key : Option String) : Json := key.elim .unpaired .string

mutual

/-- The tokens of a value. -/
def tokensOf : Json → List Token
  | .array items => .openArray :: tokensOfItems items ++ [.closeArray]
  | .object members => .openObject :: tokensOfMembers members ++ [.closeObject]
  | .null => [.atom .null]
  | .bool b => [.atom (.bool b)]
  | .number mantissa exponent => [.atom (.number mantissa exponent)]
  | .string s => [.atom (.string s)]
  | .unpaired => [.atom .unpaired]
termination_by structural j => j

/-- The tokens of some values with commas between them. -/
def tokensOfItems : List Json → List Token
  | [] => []
  | j :: rest => tokensOf j ++ (if rest.isEmpty then [] else [.comma]) ++ tokensOfItems rest
termination_by structural items => items

/-- The tokens of some members with commas between them. -/
def tokensOfMembers : List Member → List Token
  | [] => []
  | m :: rest => tokensOfMember m ++ (if rest.isEmpty then [] else [.comma]) ++ tokensOfMembers rest
termination_by structural members => members

/-- The tokens of a member. -/
def tokensOfMember : Member → List Token
  | ⟨key, value⟩ => .atom (ofKey key) :: .colon :: tokensOf value
termination_by structural m => m

end

theorem tokensFrom_skip (passed rest : List Char) :
    tokensFrom passed.length (passed ++ rest) = tokensFrom 0 rest := by
  induction passed with
  | nil => rfl
  | cons c passed ih => exact ih

/-- A text in front of a rest is read as some tokens. -/
def Reads (text : List Char) (tokens : List Token) (rest : List Char) : Prop :=
  tokensFrom 0 (text ++ rest) = (tokensFrom 0 rest).map (tokens ++ ·)

theorem reads_nil (rest : List Char) : Reads [] [] rest := by
  rw [Reads, List.nil_append]
  simp

theorem Reads.append {a b rest : List Char} {ts us : List Token} (ha : Reads a ts (b ++ rest))
    (hb : Reads b us rest) : Reads (a ++ b) (ts ++ us) rest := by
  rw [Reads, List.append_assoc, ha, hb, Option.map_map]
  congr 1
  funext vs
  exact (List.append_assoc ts us vs).symm

/-- A token that takes all of a text. -/
theorem reads_token {c : Char} {cs rest : List Char} {token : Token} (hblank : isBlank c = false)
    (h : token? c (cs ++ rest) = some (token, cs.length + 1)) : Reads (c :: cs) [token] rest := by
  rw [Reads, List.cons_append, tokensFrom, hblank, if_neg Bool.false_ne_true, h]
  simp only [Option.bind_eq_bind, Option.bind_some, Nat.add_sub_cancel]
  rw [tokensFrom_skip]
  cases tokensFrom 0 rest with
  | none => rfl
  | some tokens => rfl

theorem reads_string (s : String) (rest : List Char) :
    Reads (renderString s) [.atom (.string s)] rest := by
  have htext : renderString s = '"' :: (s.toList.flatMap renderChar ++ ['"']) := rfl
  rw [htext]
  refine reads_token (by decide) ?_
  rw [token?, List.append_assoc, List.singleton_append, unitsFrom_quoted]
  simp [ofUnits_map_toNat]

theorem reads_unpaired (rest : List Char) : Reads renderUnpaired [.atom .unpaired] rest :=
  reads_token (by decide) rfl

theorem reads_key (key : Option String) (rest : List Char) :
    Reads (key.elim renderUnpaired renderString) [.atom (ofKey key)] rest := by
  cases key with
  | none => exact reads_unpaired rest
  | some s => exact reads_string s rest

theorem token?_number {c : Char} (hc : c = '-' ∨ c.isDigit = true) (cs : List Char) :
    token? c cs = (number? (c :: cs)).map fun (value, n) => (.atom value, n) := by
  rw [token?.eq_def]
  split
  case h_11 =>
    cases number? (c :: cs) with
    | none => rfl
    | some found => rfl
  -- All other tokens start with a mark or a letter.
  all_goals exact absurd hc (by decide)

theorem headIs_renderNumber (m e : Int) :
    ∃ c cs, renderNumber m e = c :: cs ∧ (c = '-' ∨ c.isDigit = true) := by
  have hint : ∃ c cs, renderInt m = c :: cs ∧ (c = '-' ∨ c.isDigit = true) := by
    rw [renderInt]
    split
    · exact ⟨'-', _, rfl, .inl rfl⟩
    · cases hdigits : Nat.toDigits 10 m.natAbs with
      | nil => exact absurd hdigits Nat.toDigits_ne_nil
      | cons d ds =>
          exact ⟨d, ds, rfl, .inr (isDigit_of_mem_toDigits (n := m.natAbs) (by rw [hdigits]; simp))⟩
  obtain ⟨c, cs, hm, hc⟩ := hint
  rw [renderNumber, hm]
  split
  · exact ⟨c, cs, rfl, hc⟩
  · exact ⟨c, _, rfl, hc⟩

theorem reads_number (m e : Int) {rest : List Char} (hrest : Stops rest) :
    Reads (renderNumber m e) [.atom (.number m e)] rest := by
  have hnumber := number?_renderNumber m e hrest
  obtain ⟨c, cs, htext, hc⟩ := headIs_renderNumber m e
  rw [htext, List.cons_append] at hnumber
  have hblank : isBlank c = false := by
    rcases hc with rfl | hdigit
    · rfl
    · rw [isBlank]
      simp only [beq_eq_false_of_isDigit (d := ' ') (by decide) hdigit,
        beq_eq_false_of_isDigit (d := '\t') (by decide) hdigit,
        beq_eq_false_of_isDigit (d := '\n') (by decide) hdigit,
        beq_eq_false_of_isDigit (d := '\r') (by decide) hdigit, Bool.or_self]
  rw [htext]
  refine reads_token hblank ?_
  rw [token?_number hc, hnumber]
  rfl

/-- Brackets, commas and colons are read wherever they stand. -/
theorem reads_mark {c : Char} {token : Token} (hblank : isBlank c = false)
    (h : ∀ cs, token? c cs = some (token, 1)) (rest : List Char) : Reads [c] [token] rest :=
  reads_token hblank (h rest)

theorem reads_comma (rest : List Char) : Reads [','] [.comma] rest :=
  reads_mark (by decide) (fun _ => rfl) rest

mutual

/-- A value is read as its tokens, in front of what may stand behind it. -/
theorem reads_renderChars : (j : Json) → ∀ {rest : List Char}, Stops rest →
    Reads (renderChars j) (tokensOf j) rest
  | .null, rest, _ => reads_token (by decide) rfl
  | .bool true, rest, _ => reads_token (by decide) rfl
  | .bool false, rest, _ => reads_token (by decide) rfl
  | .number m e, rest, hrest => reads_number m e hrest
  | .string s, rest, _ => reads_string s rest
  | .unpaired, rest, _ => reads_unpaired rest
  | .array items, rest, _ => by
      have hopen : Reads ['['] [.openArray] (renderItems items ++ (']' :: rest)) :=
        reads_mark (by decide) (fun _ => rfl) _
      have hclose : Reads [']'] [.closeArray] rest := reads_mark (by decide) (fun _ => rfl) rest
      exact (hopen.append (reads_renderItems items (stops_cons (by decide) rest))).append hclose
  | .object members, rest, _ => by
      have hopen : Reads ['\x7b'] [.openObject] (renderMembers members ++ ('\x7d' :: rest)) :=
        reads_mark (by decide) (fun _ => rfl) _
      have hclose : Reads ['\x7d'] [.closeObject] rest := reads_mark (by decide) (fun _ => rfl) rest
      exact (hopen.append (reads_renderMembers members (stops_cons (by decide) rest))).append hclose
termination_by structural j => j

/-- So are values with commas between them. -/
theorem reads_renderItems : (items : List Json) → ∀ {rest : List Char}, Stops rest →
    Reads (renderItems items) (tokensOfItems items) rest
  | [], rest, _ => reads_nil rest
  | [j], rest, hrest => by
      have hj := reads_renderChars j hrest
      simpa [renderItems, tokensOfItems] using hj
  | j :: k :: items, rest, hrest => by
      have hj := reads_renderChars j
        (stops_cons (c := ',') (by decide) (renderItems (k :: items) ++ rest))
      exact (hj.append (reads_comma _)).append (reads_renderItems (k :: items) hrest)
termination_by structural items => items

/-- So are members with commas between them. -/
theorem reads_renderMembers : (members : List Member) → ∀ {rest : List Char}, Stops rest →
    Reads (renderMembers members) (tokensOfMembers members) rest
  | [], rest, _ => reads_nil rest
  | [m], rest, hrest => by
      have hm := reads_renderMember m hrest
      simpa [renderMembers, tokensOfMembers] using hm
  | m :: n :: members, rest, hrest => by
      have hm := reads_renderMember m
        (stops_cons (c := ',') (by decide) (renderMembers (n :: members) ++ rest))
      exact (hm.append (reads_comma _)).append (reads_renderMembers (n :: members) hrest)
termination_by structural members => members

/-- So is a member. -/
theorem reads_renderMember : (m : Member) → ∀ {rest : List Char}, Stops rest →
    Reads (renderMember m) (tokensOfMember m) rest
  | ⟨key, value⟩, rest, hrest => by
      have hcolon : Reads [':'] [.colon] (renderChars value ++ rest) :=
        reads_mark (by decide) (fun _ => rfl) _
      exact (reads_key key _).append (hcolon.append (reads_renderChars value hrest))
termination_by structural m => m

end

/-! ## Values -/

theorem readFrom_cons {frames frames' : List Frame} {expected expected' : Expected} {t : Token}
    (h : step frames expected t = some (frames', expected')) (ts : List Token) :
    readFrom frames expected (t :: ts) = readFrom frames' expected' ts := by
  rw [readFrom, h]
  rfl

/-- A value may come next. -/
inductive TakesValue : Expected → Prop where
  /-- It has to come. -/
  | value : TakesValue .value
  /-- It is the first of an array. -/
  | valueOrEnd : TakesValue .valueOrEnd

/-- A key may come next, behind some members, last first. -/
inductive TakesKey : List Member → Expected → Prop where
  /-- It has to come. -/
  | key (members : List Member) : TakesKey members (.key members)
  /-- It is the first of an object. -/
  | keyOrEnd : TakesKey [] .keyOrEnd

theorem TakesValue.step_atom {e : Expected} (h : TakesValue e) (frames : List Frame) (v : Json) :
    step frames e (.atom v) = some (frames, .next v) := by
  cases h with
  | value | valueOrEnd => rfl

theorem TakesValue.step_openArray {e : Expected} (h : TakesValue e) (frames : List Frame) :
    step frames e .openArray = some (.array [] :: frames, .valueOrEnd) := by
  cases h with
  | value | valueOrEnd => rfl

theorem TakesValue.step_openObject {e : Expected} (h : TakesValue e) (frames : List Frame) :
    step frames e .openObject = some (frames, .keyOrEnd) := by
  cases h with
  | value | valueOrEnd => rfl

theorem TakesKey.step_ofKey {members : List Member} {e : Expected} (h : TakesKey members e)
    (frames : List Frame) (key : Option String) :
    step frames e (.atom (ofKey key)) = some (frames, .colon members key) := by
  cases key with
  | none =>
      cases h with
      | key | keyOrEnd => rfl
  | some s =>
      cases h with
      | key | keyOrEnd => rfl

mutual

/-- The tokens of a value take the reader behind it. -/
theorem readFrom_tokensOf : (j : Json) → ∀ (frames : List Frame) {e : Expected}, TakesValue e →
    ∀ ts, readFrom frames e (tokensOf j ++ ts) = readFrom frames (.next j) ts
  | .null, frames, _, he, ts => readFrom_cons (he.step_atom frames _) ts
  | .bool b, frames, _, he, ts => readFrom_cons (he.step_atom frames _) ts
  | .number m e, frames, _, he, ts => readFrom_cons (he.step_atom frames _) ts
  | .string s, frames, _, he, ts => readFrom_cons (he.step_atom frames _) ts
  | .unpaired, frames, _, he, ts => readFrom_cons (he.step_atom frames _) ts
  | .array [], frames, _, he, ts => readFrom_cons (he.step_openArray frames) _
  | .array (j :: items), frames, _, he, ts => by
      have hitems := readFrom_items (j :: items) (by simp) frames [] .valueOrEnd ts
      rw [tokensOf, List.append_assoc, List.cons_append, List.singleton_append,
        readFrom_cons (he.step_openArray frames), hitems]
      rfl
  | .object [], frames, _, he, ts => readFrom_cons (he.step_openObject frames) _
  | .object (m :: members), frames, _, he, ts => by
      have hmembers := readFrom_members (m :: members) (by simp) frames .keyOrEnd ts
      rw [tokensOf, List.append_assoc, List.cons_append, List.singleton_append,
        readFrom_cons (he.step_openObject frames), hmembers]
      rfl
termination_by structural j => j

/-- The tokens of the rest of an array take the reader behind the array. -/
theorem readFrom_items : (items : List Json) → items ≠ [] → ∀ (frames : List Frame)
    (before : List Json) {e : Expected}, TakesValue e → ∀ ts,
      readFrom (.array before :: frames) e (tokensOfItems items ++ .closeArray :: ts) =
        readFrom frames (.next (.array (before.reverse ++ items))) ts
  | [], hne, _, _, _, _, _ => absurd rfl hne
  | [j], _, frames, before, _, he, ts => by
      have hj := readFrom_tokensOf j (.array before :: frames) he (.closeArray :: ts)
      have hclose : step (.array before :: frames) (.next j) .closeArray =
          some (frames, .next (.array (j :: before).reverse)) := rfl
      rw [tokensOfItems, tokensOfItems, List.append_nil, List.isEmpty_nil, if_pos rfl,
        List.append_nil, hj, readFrom_cons hclose, List.reverse_cons]
  | j :: k :: items, _, frames, before, _, he, ts => by
      have hj := readFrom_tokensOf j (.array before :: frames) he
        (.comma :: (tokensOfItems (k :: items) ++ .closeArray :: ts))
      have hcomma : step (.array before :: frames) (.next j) .comma =
          some (.array (j :: before) :: frames, .value) := rfl
      have hitems := readFrom_items (k :: items) (by simp) frames (j :: before) .value ts
      rw [tokensOfItems, List.append_assoc, List.append_assoc, if_neg (by simp),
        List.singleton_append, hj, readFrom_cons hcomma, hitems, List.reverse_cons,
        List.append_assoc, List.singleton_append]
termination_by structural items => items

/-- The tokens of the rest of an object take the reader behind the object. -/
theorem readFrom_members : (members : List Member) → members ≠ [] → ∀ (frames : List Frame)
    {before : List Member} {e : Expected}, TakesKey before e → ∀ ts,
      readFrom frames e (tokensOfMembers members ++ .closeObject :: ts) =
        readFrom frames (.next (.object (before.reverse ++ members))) ts
  | [], hne, _, _, _, _, _ => absurd rfl hne
  | [m], _, frames, before, _, he, ts => by
      have hm := readFrom_member m frames he (.closeObject :: ts)
      have hclose : step (.object before m.key :: frames) (.next m.value) .closeObject =
          some (frames, .next (.object (m :: before).reverse)) := by
        cases m with
        | mk key value => rfl
      rw [tokensOfMembers, tokensOfMembers, List.append_nil, List.isEmpty_nil, if_pos rfl,
        List.append_nil, hm, readFrom_cons hclose, List.reverse_cons]
  | m :: n :: members, _, frames, before, _, he, ts => by
      have hm := readFrom_member m frames he
        (.comma :: (tokensOfMembers (n :: members) ++ .closeObject :: ts))
      have hcomma : step (.object before m.key :: frames) (.next m.value) .comma =
          some (frames, .key (m :: before)) := by
        cases m with
        | mk key value => rfl
      have hmembers := readFrom_members (n :: members) (by simp) frames (.key (m :: before)) ts
      rw [tokensOfMembers, List.append_assoc, List.append_assoc, if_neg (by simp),
        List.singleton_append, hm, readFrom_cons hcomma, hmembers, List.reverse_cons,
        List.append_assoc, List.singleton_append]
termination_by structural members => members

/-- The tokens of a member take the reader behind its value. -/
theorem readFrom_member : (m : Member) → ∀ (frames : List Frame) {before : List Member}
    {e : Expected}, TakesKey before e → ∀ ts,
      readFrom frames e (tokensOfMember m ++ ts) =
        readFrom (.object before m.key :: frames) (.next m.value) ts
  | ⟨key, value⟩, frames, before, _, he, ts => by
      have hcolon : step frames (.colon before key) .colon =
          some (.object before key :: frames, .value) := rfl
      have hvalue := readFrom_tokensOf value (.object before key :: frames) .value ts
      rw [tokensOfMember, List.cons_append, List.cons_append,
        readFrom_cons (he.step_ofKey frames key), readFrom_cons hcolon, hvalue]
termination_by structural m => m

end

/-- A value that was written is read back. -/
theorem ofText?_render (j : Json) : ofText? j.render = some j := by
  have htokens := reads_renderChars j stops_nil
  have hread := readFrom_tokensOf j [] .value []
  rw [Reads, List.append_nil, tokensFrom, Option.map_some] at htokens
  rw [ofText?, render, String.toList_ofList, htokens]
  exact hread

end Stylesheet.Json
