import Mathlib.Data.List.TakeDrop
import Reflow.Json.Printer
import Reflow.Json.Reader
import Reflow.Proofs.LineRuns

/-!
# Written JSON is read back

Reading a written value gives the value, whatever stands behind it as long as no number could go on
there: a comma, a closing bracket or brace, or nothing (`Readable.readBack`). So every text of a
readable value is read as that value (`parse?_text`).
-/

namespace Reflow.Json

open Text List

/-! ## Strings -/

/-- The code of a control character is read from its two last hexadecimal digits. -/
theorem hexUnit?_hexDigit : ∀ code < 0x20,
    hexUnit? '0' '0' (hexDigit (code / 16)) (hexDigit (code % 16)) = some code := by
  decide

theorem stringCodes_escapeChar (c : Char) (rest : Text) :
    stringCodes (escapeChar c ++ rest) = consCode c.toNat (stringCodes rest) := by
  by_cases named : c = '"' ∨ c = '\\' ∨ c = '\x08' ∨ c = '\x0c' ∨ c = '\n' ∨ c = '\r' ∨ c = '\t'
  · rcases named with rfl | rfl | rfl | rfl | rfl | rfl | rfl <;>
      simp [escapeChar, stringCodes, namedEscape?]
  · simp only [not_or] at named
    obtain ⟨quote, backslash, backspace, feed, line, carriage, tab⟩ := named
    by_cases control : c.toNat < 0x20
    · have code := hexUnit?_hexDigit c.toNat control
      simp [escapeChar, quote, backslash, backspace, feed, line, carriage, tab, control,
        stringCodes, code]
    · simp [escapeChar, quote, backslash, backspace, feed, line, carriage, tab, control,
        stringCodes]

theorem stringCodes_escaped (text rest : Text) :
    stringCodes (text.flatMap escapeChar ++ '"' :: rest) = some (text.map Char.toNat, rest) := by
  induction text with
  | nil => rfl
  | cons c text ih =>
    rw [flatMap_cons, append_assoc, stringCodes_escapeChar, ih]
    rfl

/-- No character is half of a surrogate pair. -/
theorem not_surrogate (c : Char) :
    isHighSurrogate c.toNat = false ∧ isLowSurrogate c.toNat = false := by
  have valid : c.toNat < 0xd800 ∨ 0xdfff < c.toNat ∧ c.toNat < 0x110000 := c.valid
  simp only [isHighSurrogate, isLowSurrogate, Bool.and_eq_false_iff, decide_eq_false_iff_not]
  omega

theorem charsOfCodes?_cons (c : Char) (codes : List Nat) :
    charsOfCodes? (c.toNat :: codes) = (charsOfCodes? codes).map (c :: ·) := by
  obtain ⟨high, low⟩ := not_surrogate c
  cases codes with
  | nil => simp [charsOfCodes?, high, low]
  | cons code codes => simp [charsOfCodes?, high, low]

theorem charsOfCodes?_map (text : Text) :
    charsOfCodes? (text.map Char.toNat) = some text := by
  induction text with
  | nil => rfl
  | cons c text ih => rw [map_cons, charsOfCodes?_cons, ih, Option.map_some]

theorem stringBody_escaped (text : String) (rest : Text) :
    stringBody (text.toList.flatMap escapeChar ++ '"' :: rest) = some (some text, rest) := by
  rw [stringBody, stringCodes_escaped]
  simp only [charsOfCodes?_map, Option.map_some, String.ofList_toList]

/-! ## Numbers -/

/-- What may stand behind a value: nothing, a comma, or the end of what the value is in. -/
def Ended (rest : Text) : Prop := ∀ c ∈ rest.head?, c = ',' ∨ c = ']' ∨ c = '\x7d'

theorem natOfDigits_toDigits (n : Nat) : natOfDigits (Nat.toDigits 10 n) = n := by
  have same : natOfDigits (Nat.toDigits 10 n) = Nat.ofDigitChars 10 (Nat.toDigits 10 n) 0 := by
    simp only [natOfDigits, Nat.ofDigitChars, Nat.mul_comm]
  rw [same, Nat.ofDigitChars_ten_toDigits]

variable {n : Nat} {rest text : Text}

/-- Only zero is written with a zero in front. -/
theorem toDigits_eq_zero_cons (digits : Nat.toDigits 10 n = '0' :: rest) : n = 0 ∧ rest = [] := by
  induction n using Nat.strongRecOn generalizing rest with
  | ind n ih =>
    rw [Nat.toDigits_eq_if (by decide)] at digits
    split at digits
    · next small =>
      have zero : ∀ n < 10, Nat.digitChar n = '0' → n = 0 := by decide
      obtain ⟨first, tail⟩ := List.cons.inj digits
      exact ⟨zero n small first, tail.symm⟩
    · next large =>
      -- The digits in front of the last one begin with a zero too, so they are those of zero.
      cases front : Nat.toDigits 10 (n / 10) with
      | nil => exact absurd front Nat.toDigits_ne_nil
      | cons c others =>
        rw [front, cons_append] at digits
        obtain rfl := (List.cons.inj digits).1
        have := (ih (n / 10) (by omega) front).1
        omega

theorem wholePart_toDigits (n : Nat) (stop : ∀ c ∈ rest.head?, c.isDigit = false) :
    wholePart (Nat.toDigits 10 n ++ rest) = some (Nat.toDigits 10 n, rest) := by
  have all : ∀ c ∈ Nat.toDigits 10 n, c.isDigit := fun c member =>
    Nat.isDigit_of_mem_toDigits (by decide) (by decide) member
  obtain ⟨front, back⟩ := takeWhile_stop all stop
  rw [wholePart, span_eq_takeWhile_dropWhile, front, back]
  split
  · next noneLeft => exact absurd (Prod.mk.inj noneLeft).1 Nat.toDigits_ne_nil
  · next zeros =>
    have tail := (toDigits_eq_zero_cons (Prod.mk.inj zeros).1).2
    cases tail
  · next same => rw [same]

theorem exists_toDigits (n : Nat) :
    ∃ c digits, Nat.toDigits 10 n = c :: digits ∧ c.isDigit := by
  cases front : Nat.toDigits 10 n with
  | nil => exact absurd front Nat.toDigits_ne_nil
  | cons c digits =>
    have first : c ∈ Nat.toDigits 10 n := by simp [front]
    exact ⟨c, digits, rfl, Nat.isDigit_of_mem_toDigits (by decide) (by decide) first⟩

def integerText (negative : Bool) (n : Nat) : NumberText := ⟨negative, Nat.toDigits 10 n, [], none⟩

section Ended

variable {rest : Text} (ended : Ended rest)

include ended

theorem Ended.not_digit : ∀ c ∈ rest.head?, c.isDigit = false := by
  intro c first
  rcases ended c first with rfl | rfl | rfl <;> rfl

theorem Ended.fractionPart : fractionPart rest = some ([], rest) := by
  cases rest with
  | nil => rfl
  | cons c rest => rcases ended c rfl with rfl | rfl | rfl <;> rfl

theorem Ended.exponentPart : exponentPart rest = some (none, rest) := by
  cases rest with
  | nil => rfl
  | cons c rest => rcases ended c rfl with rfl | rfl | rfl <;> rfl

theorem numberText_minus (n : Nat) :
    numberText ('-' :: (Nat.toDigits 10 n ++ rest)) = some (integerText true n, rest) := by
  simp [numberText, wholePart_toDigits n ended.not_digit, ended.fractionPart, ended.exponentPart,
    integerText]

theorem numberText_toDigits (n : Nat) :
    numberText (Nat.toDigits 10 n ++ rest) = some (integerText false n, rest) := by
  have whole := wholePart_toDigits n ended.not_digit
  obtain ⟨c, digits, front, digit⟩ := exists_toDigits n
  rw [front, cons_append] at whole
  have unsigned : c ≠ '-' := by
    rintro rfl
    cases digit
  simp [front, numberText, unsigned, whole, ended.fractionPart, ended.exponentPart, integerText]

end Ended

/-- A number within range is held as an integer. -/
theorem value?_natural (small : n < 2 ^ 64) : (integerText false n).value? = some (.natural n) := by
  have small : n < 0x10000000000000000 := small
  simp only [NumberText.value?, NumberText.isInteger, integerText, natOfDigits_toDigits, small]
  rfl

theorem value?_negative (positive : 0 < n) (small : n ≤ 2 ^ 63) :
    (integerText true n).value? = some (.negative n) := by
  have small : n ≤ 0x8000000000000000 := small
  simp only [NumberText.value?, NumberText.isInteger, integerText, natOfDigits_toDigits, positive,
    small]
  rfl

/-! ## Readable values -/

/-- A value that its text determines: it holds no floating point number but minus zero, only integers
within range, and nothing that cannot be held. -/
inductive Readable : Json → Prop where
  | null : Readable .null
  | bool (value : Bool) : Readable (.bool value)
  | natural {n : Nat} (small : n < 2 ^ 64) : Readable (.number (.natural n))
  | negative {n : Nat} (positive : 0 < n) (small : n ≤ 2 ^ 63) : Readable (.number (.negative n))
  | minusZero : Readable (.number (.real 0x8000000000000000))
  | string (text : String) : Readable (.string text)
  | array {items : List Json} (all : ∀ item ∈ items, Readable item) : Readable (.array items)
  | object {members : List (String × Json)} (all : ∀ member ∈ members, Readable member.2) :
      Readable (.object members)

@[simp]
theorem readable_natural : Readable (.number (.natural n)) ↔ n < 2 ^ 64 := by
  constructor
  · rintro ⟨⟩
    assumption
  · exact .natural

@[simp]
theorem readable_array {items : List Json} :
    Readable (.array items) ↔ ∀ item ∈ items, Readable item := by
  constructor
  · rintro ⟨⟩
    assumption
  · exact .array

@[simp]
theorem readable_object {members : List (String × Json)} :
    Readable (.object members) ↔ ∀ member ∈ members, Readable member.2 := by
  constructor
  · rintro ⟨⟩
    assumption
  · exact .object

attribute [simp] Readable.null Readable.bool Readable.string

/-! ## Arrays and objects -/

def writeMember (member : String × Json) : Text :=
  writeString member.1 ++ ':' :: write member.2

theorem writeAll_eq (items : List Json) : writeAll items = items.map write := by
  induction items with
  | nil => rfl
  | cons item items ih => rw [writeAll, ih, map_cons]

theorem writeMembers_eq (members : List (String × Json)) :
    writeMembers members = members.map fun member => (member.1, write member.2) := by
  induction members with
  | nil => rfl
  | cons member members ih => rw [writeMembers, ih, map_cons]

theorem write_array (items : List Json) :
    write (.array items) = '[' :: commaSeparated (items.map write) ++ [']'] := by
  rw [write, writeArray, writeAll_eq]

theorem write_object (members : List (String × Json)) :
    write (.object members) =
      '\x7b' :: commaSeparated (members.map writeMember) ++ ['\x7d'] := by
  rw [write, writeObject, writeMembers_eq, map_map]
  rfl

theorem commaSeparated_cons_cons (first second : Text) (rest : List Text) :
    commaSeparated (first :: second :: rest) = first ++ ',' :: commaSeparated (second :: rest) :=
  rfl

theorem skipGap_cons {c : Char} (solid : isGap c = false) (rest : Text) :
    skipGap (c :: rest) = c :: rest :=
  dropWhile_cons_of_neg (by simp [solid])

/-- A value whose text is read back wherever it ends. -/
def ReadBack (json : Json) : Prop :=
  ∀ (steps : Nat) (rest : Text), (write json).length ≤ steps → Ended rest →
    value (steps + 1) (write json ++ rest) = some (json, rest)

theorem ended_comma (rest : Text) : Ended (',' :: rest) := by simp [Ended]

theorem ended_bracket (rest : Text) : Ended (']' :: rest) := by simp [Ended]

theorem ended_brace (rest : Text) : Ended ('\x7d' :: rest) := by simp [Ended]

theorem items_write {elements : List Json} {steps : Nat} (nonempty : elements ≠ [])
    (back : ∀ item ∈ elements, ReadBack item)
    (enough : (commaSeparated (elements.map write)).length + 1 < steps) (rest : Text) :
    items steps (commaSeparated (elements.map write) ++ ']' :: rest) = some (elements, rest) := by
  induction elements generalizing steps with
  | nil => exact absurd rfl nonempty
  | cons item others ih =>
    obtain ⟨steps, rfl⟩ : ∃ fewer, steps = fewer + 2 := ⟨steps - 2, by omega⟩
    have first := back item mem_cons_self steps
    cases others with
    | nil =>
      simp only [map_cons, map_nil, commaSeparated] at enough ⊢
      have read := first (']' :: rest) (by omega) (ended_bracket rest)
      rw [items, read]
      simp [skipGap_cons, isGap]
    | cons next others =>
      simp only [map_cons, commaSeparated_cons_cons, length_append, length_cons] at enough ih ⊢
      have read := first _ (by omega)
        (ended_comma (commaSeparated (write next :: others.map write) ++ ']' :: rest))
      have behind := @ih (steps + 1) (cons_ne_nil _ _)
        (forall_mem_cons.mp back).2 (by omega)
      rw [append_assoc, cons_append, items, read]
      simp [skipGap_cons, isGap, behind]

/-- The members of an object as they are read: any name might not be held. -/
def readMember (member : String × Json) : Option String × Json := (some member.1, member.2)

theorem length_write_lt (member : String × Json) :
    (write member.2).length < (writeMember member).length := by
  simp only [writeMember, length_append, length_cons]
  omega

section Members

variable (member : String × Json) {steps : Nat} {rest text : Text}

theorem members_last
    (read : value steps (write member.2 ++ '\x7d' :: rest) = some (member.2, '\x7d' :: rest)) :
    members (steps + 1) (writeMember member ++ '\x7d' :: rest) =
      some ([readMember member], rest) := by
  have named := stringBody_escaped member.1 (':' :: (write member.2 ++ '\x7d' :: rest))
  simp [members, writeMember, writeString, named, read, skipGap_cons, isGap, readMember]

theorem members_more {others : List (Option String × Json)}
    (read : value steps (write member.2 ++ ',' :: text) = some (member.2, ',' :: text))
    (behind : members steps text = some (others, rest)) :
    members (steps + 1) (writeMember member ++ ',' :: text) =
      some (readMember member :: others, rest) := by
  have named := stringBody_escaped member.1 (':' :: (write member.2 ++ ',' :: text))
  rw [members]
  simp [writeMember, writeString, named, read, skipGap_cons, isGap, readMember, behind]

end Members

theorem members_write {fields : List (String × Json)} {steps : Nat} (nonempty : fields ≠ [])
    (back : ∀ member ∈ fields, ReadBack member.2)
    (enough : (commaSeparated (fields.map writeMember)).length + 1 < steps) (rest : Text) :
    members steps (commaSeparated (fields.map writeMember) ++ '\x7d' :: rest) =
      some (fields.map readMember, rest) := by
  induction fields generalizing steps with
  | nil => exact absurd rfl nonempty
  | cons member others ih =>
    obtain ⟨steps, rfl⟩ : ∃ fewer, steps = fewer + 2 := ⟨steps - 2, by omega⟩
    have first := back member mem_cons_self steps
    have shorter := length_write_lt member
    cases others with
    | nil =>
      simp only [map_cons, map_nil, commaSeparated] at enough ⊢
      have read := first ('\x7d' :: rest) (by omega) (ended_brace rest)
      exact members_last member read
    | cons next others =>
      simp only [map_cons, commaSeparated_cons_cons, length_append, length_cons] at enough ih ⊢
      have read := first _ (by omega)
        (ended_comma (commaSeparated (writeMember next :: others.map writeMember) ++
          '\x7d' :: rest))
      have behind := @ih (steps + 1) (cons_ne_nil _ _)
        (forall_mem_cons.mp back).2 (by omega)
      rw [append_assoc, cons_append]
      exact members_more member read behind

theorem ofMembers_read (fields : List (String × Json)) :
    ofMembers (fields.map readMember) = .object fields := by
  have held : ((fields.map readMember).mapM fun member => member.1.map (·, member.2)) =
      some fields := by
    induction fields with
    | nil => rfl
    | cons member fields ih => simp [readMember, ih]
  unfold ofMembers
  split
  · next named found =>
    cases held.symm.trans found
    rfl
  · next found => cases held.symm.trans found

/-! ## Values -/

/-- A text that starts like a number is read as one. -/
theorem value_of_number {steps : Nat} {c : Char} {read : NumberText}
    (front : c = '-' ∨ c.isDigit) (number : numberText (c :: text) = some (read, rest)) :
    value (steps + 1) (c :: text) = some (ofNumber read, rest) := by
  have other : ∀ d, d ≠ '-' → d.isDigit = false → c ≠ d := by
    rintro d sign digit rfl
    simp_all
  have gap : skipGap (c :: text) = c :: text := skipGap_cons (by simp [isGap, other]) text
  simp [value, gap, number, other]

theorem value_natural (small : n < 2 ^ 64) (steps : Nat) (ended : Ended rest) :
    value (steps + 1) (writeNat n ++ rest) = some (.number (.natural n), rest) := by
  have number := numberText_toDigits ended n
  obtain ⟨c, digits, front, digit⟩ := exists_toDigits n
  rw [front, cons_append] at number
  rw [writeNat, front, cons_append, value_of_number (.inr digit) number, ofNumber,
    value?_natural small]

theorem value_negative (positive : 0 < n) (small : n ≤ 2 ^ 63) (steps : Nat) (ended : Ended rest) :
    value (steps + 1) ('-' :: writeNat n ++ rest) = some (.number (.negative n), rest) := by
  rw [writeNat, cons_append, value_of_number (.inl rfl) (numberText_minus ended n), ofNumber,
    value?_negative positive small]

/-- Minus zero is written with a point and one digit behind it. -/
theorem value_minusZero (steps : Nat) (ended : Ended rest) :
    value (steps + 1) (Real.write 0x8000000000000000 ++ rest) =
      some (.number (.real 0x8000000000000000), rest) := by
  have noneFront : ∀ c ∈ ([] : Text), c.isDigit := by simp
  obtain ⟨front, back⟩ := takeWhile_stop noneFront ended.not_digit
  rw [nil_append] at front back
  have number : numberText ('-' :: '0' :: '.' :: '0' :: rest) =
      some (⟨true, ['0'], ['0'], none⟩, rest) := by
    simp [numberText, wholePart, fractionPart, span_eq_takeWhile_dropWhile, front, back,
      ended.exponentPart]
  have held : NumberText.value? ⟨true, ['0'], ['0'], none⟩ = some (.real 0x8000000000000000) := by
    decide +kernel
  have text : Real.write 0x8000000000000000 = ['-', '0', '.', '0'] := by decide +kernel
  rw [text]
  refine (value_of_number (.inl rfl) number).trans ?_
  rw [ofNumber, held]

theorem value_string (text : String) (steps : Nat) (rest : Text) :
    value (steps + 1) (writeString text ++ rest) = some (.string text, rest) := by
  simp [value, writeString, skipGap, isGap, stringBody_escaped text rest, ofString]

/-- A text that starts with neither a blank nor the end of a container. -/
def Opens (text : Text) : Prop :=
  ∃ c rest, text = c :: rest ∧ isGap c = false ∧ c ≠ ']' ∧ c ≠ '\x7d'

theorem Opens.append (opens : Opens text) (rest : Text) : Opens (text ++ rest) := by
  obtain ⟨c, tail, rfl, gap, ends⟩ := opens
  exact ⟨c, tail ++ rest, rfl, gap, ends⟩

theorem Opens.commaSeparated {first : Text} (opens : Opens first) (others : List Text) :
    Opens (commaSeparated (first :: others)) := by
  cases others with
  | nil => exact opens
  | cons second others => exact opens.append _

theorem Readable.opens {json : Json} (readable : Readable json) : Opens (write json) := by
  cases readable with
  | null => exact ⟨'n', _, rfl, rfl, by decide⟩
  | bool value => cases value <;> exact ⟨_, _, rfl, rfl, by decide⟩
  | @natural n small =>
    obtain ⟨c, digits, front, digit⟩ := exists_toDigits n
    have other : ∀ d, d.isDigit = false → c ≠ d := by
      rintro d not_digit rfl
      exact Bool.false_ne_true (not_digit.symm.trans digit)
    exact ⟨c, digits, front, by simp [isGap, other], other ']' rfl, other '\x7d' rfl⟩
  | negative | minusZero => exact ⟨'-', _, rfl, rfl, by decide⟩
  | string text => exact ⟨'"', _, rfl, rfl, by decide⟩
  | array all => exact ⟨'[', _, write_array _, rfl, by decide⟩
  | object all => exact ⟨'\x7b', _, write_object _, rfl, by decide⟩

theorem opens_writeMember (member : String × Json) : Opens (writeMember member) :=
  ⟨'"', _, rfl, rfl, by decide⟩

theorem value_of_items {steps : Nat} {text rest : Text} {elements : List Json}
    (opens : Opens text) (read : items steps text = some (elements, rest)) :
    value (steps + 1) ('[' :: text) = some (.array elements, rest) := by
  obtain ⟨c, tail, rfl, gap, bracket, brace⟩ := opens
  simp [value, @skipGap_cons '[' rfl, skipGap_cons gap, bracket, read]

theorem value_of_members {steps : Nat} {fields : List (Option String × Json)} (opens : Opens text)
    (read : members steps text = some (fields, rest)) :
    value (steps + 1) ('\x7b' :: text) = some (ofMembers fields, rest) := by
  obtain ⟨c, tail, rfl, gap, bracket, brace⟩ := opens
  simp [value, @skipGap_cons '\x7b' rfl, skipGap_cons gap, brace, read]

/-- A written value is read back wherever it ends. -/
theorem Readable.readBack {json : Json} (readable : Readable json) : ReadBack json := by
  -- Every item is shorter than the array that holds it, so the steps that are left suffice for it.
  induction readable with intro steps rest enough ended
  | null => simp [write, value, skipGap, isGap]
  | bool value => cases value <;> simp [write, Json.value, skipGap, isGap]
  | natural small => exact value_natural small steps ended
  | negative positive small => exact value_negative positive small steps ended
  | minusZero => exact value_minusZero steps ended
  | string text => exact value_string text steps rest
  | @array elements all ih =>
    rw [write_array] at enough ⊢
    cases elements with
    | nil => simp [commaSeparated, value, skipGap, isGap]
    | cons item others =>
      simp only [length_append, length_cons, length_nil] at enough
      have read := @items_write _ steps (cons_ne_nil item others) ih (by omega) rest
      have opens := (all item mem_cons_self).opens.commaSeparated (others.map write)
      rw [append_assoc, cons_append, singleton_append]
      exact value_of_items (opens.append _) read
  | @object fields all ih =>
    rw [write_object] at enough ⊢
    cases fields with
    | nil => simp [commaSeparated, value, skipGap, isGap]
    | cons member others =>
      simp only [length_append, length_cons, length_nil] at enough
      have read := @members_write _ steps (cons_ne_nil member others) ih (by omega) rest
      have opens := (opens_writeMember member).commaSeparated (others.map writeMember)
      rw [append_assoc, cons_append, singleton_append, ← ofMembers_read]
      exact value_of_members (opens.append _) read

/-- The text of a readable value is read as that value. -/
theorem parse?_text {json : Json} (readable : Readable json) : parse? json.text = some json := by
  have read := readable.readBack (2 * (write json).length + 1) [] (by omega) (by simp [Ended])
  rw [append_nil] at read
  simp only [parse?, text, String.toList_ofList, read]
  rfl

end Reflow.Json
