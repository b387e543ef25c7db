import Reflow.Json.Basic
import Reflow.Json.Real
import Reflow.Text.Digit

/-!
# Reading JSON

Reads exactly one value with nothing but blanks around it. Every reader takes the characters that
are left and returns what it read together with the characters behind it.
-/

namespace Reflow.Json

open Text

abbrev Reader (α : Type) := Text → Option (α × Text)

/-- The blanks between tokens. -/
def isGap (c : Char) : Bool := c == ' ' || c == '\n' || c == '\t' || c == '\r'

def skipGap (text : Text) : Text := text.dropWhile isGap

/-! ## Strings -/

/-- The number written by four hexadecimal digits. -/
def hexUnit? (a b c d : Char) : Option Nat :=
  match hexValue? a, hexValue? b, hexValue? c, hexValue? d with
  | some a, some b, some c, some d => some (((a * 16 + b) * 16 + c) * 16 + d)
  | _, _, _, _ => none

/-- The character behind a backslash, unless it is a numbered escape. -/
def namedEscape? (c : Char) : Option Char :=
  if c = '"' then some '"'
  else if c = '\\' then some '\\'
  else if c = '/' then some '/'
  else if c = 'b' then some '\x08'
  else if c = 'f' then some '\x0c'
  else if c = 'n' then some '\n'
  else if c = 'r' then some '\r'
  else if c = 't' then some '\t'
  else none

/-- Puts a code before those that were read behind it. -/
def consCode (code : Nat) : Option (List Nat × Text) → Option (List Nat × Text)
  | some (codes, rest) => some (code :: codes, rest)
  | none => none

/-- Reads the codes of a string up to its closing quote. Numbered escapes give single UTF-16
units. -/
def stringCodes : Text → Option (List Nat × Text)
  | [] => none
  | '"' :: rest => some ([], rest)
  | '\\' :: 'u' :: a :: b :: c :: d :: rest =>
    match hexUnit? a b c d with
    | some code => consCode code (stringCodes rest)
    | none => none
  | '\\' :: c :: rest =>
    match namedEscape? c with
    | some c => consCode c.toNat (stringCodes rest)
    | none => none
  | c :: rest => if c.toNat < 0x20 || c == '\\' then none else consCode c.toNat (stringCodes rest)

def isHighSurrogate (code : Nat) : Bool := 0xd800 ≤ code && code < 0xdc00

def isLowSurrogate (code : Nat) : Bool := 0xdc00 ≤ code && code < 0xe000

/-- The characters of codes, unless a surrogate stands alone. -/
def charsOfCodes? : List Nat → Option Text
  | [] => some []
  | [code] =>
    if isHighSurrogate code || isLowSurrogate code then none else some [Char.ofNat code]
  | high :: low :: rest =>
    if isHighSurrogate high then
      if isLowSurrogate low then
        let code := 0x10000 + (high - 0xd800) * 0x400 + (low - 0xdc00)
        (charsOfCodes? rest).map (Char.ofNat code :: ·)
      else none
    else if isLowSurrogate high then none
    else (charsOfCodes? (low :: rest)).map (Char.ofNat high :: ·)

/-- Reads a string behind its opening quote; nothing if it holds half of a surrogate pair. -/
def stringBody : Reader (Option String)
  | text =>
    match stringCodes text with
    | some (codes, rest) => some ((charsOfCodes? codes).map String.ofList, rest)
    | none => none

/-! ## Numbers -/

def natOfDigits (digits : Text) : Nat :=
  digits.foldl (fun value c => value * 10 + (c.toNat - '0'.toNat)) 0

/-- Takes digits into a significand as long as it stays below 2^64; returns it with the digits that
did not go in. -/
def significand : Nat → Text → Nat × Text
  | value, [] => (value, [])
  | value, c :: rest =>
    let next := value * 10 + (c.toNat - '0'.toNat)
    if next < 0x10000000000000000 then significand next rest else (value, c :: rest)

structure NumberText where
  negative : Bool
  /-- The digits before the point. -/
  whole : Text
  /-- The digits behind the point, empty if there is none. -/
  fraction : Text
  /-- The sign and the digits of the exponent, if there is one. -/
  exponent : Option (Bool × Text)

def NumberText.isInteger (number : NumberText) : Bool :=
  number.fraction.isEmpty && number.exponent.isNone

/-- The bits of a number that is not held as an integer, if it is within range. -/
def NumberText.real? (number : NumberText) : Option UInt64 :=
  let (digits, dropped) := significand 0 number.whole
  let (digits, tail) := significand digits number.fraction
  let shift : Int := (dropped.length : Int) + (tail.length : Int) - (number.fraction.length : Int)
  match number.exponent with
  | none => Real.ofParts? number.negative digits shift
  | some (negative, exponentDigits) =>
    let exponent := natOfDigits exponentDigits
    if exponent < 0x80000000 then
      Real.ofParts? number.negative digits (if negative then shift - exponent else shift + exponent)
    else if digits != 0 && !negative then none
    else Real.ofParts? number.negative 0 0

def NumberText.value? (number : NumberText) : Option JsonNumber :=
  let whole := natOfDigits number.whole
  if number.isInteger && !number.negative && whole < 0x10000000000000000 then some (.natural whole)
  else if number.isInteger && number.negative && 0 < whole && whole ≤ 0x8000000000000000 then
    some (.negative whole)
  else number.real?.map .real

def fractionPart : Reader Text
  | '.' :: rest =>
    match rest.span Char.isDigit with
    | ([], _) => none
    | (digits, after) => some (digits, after)
  | rest => some ([], rest)

def exponentPart (text : Text) : Option (Option (Bool × Text) × Text) :=
  match text with
  | [] => some (none, text)
  | c :: rest =>
    if c = 'e' || c = 'E' then
      let (negative, rest) := match rest with
        | '+' :: after => (false, after)
        | '-' :: after => (true, after)
        | _ => (false, rest)
      match rest.span Char.isDigit with
      | ([], _) => none
      | (digits, after) => some (some (negative, digits), after)
    else some (none, text)

/-- Reads the digits before the point: a zero by itself, or digits that do not start with zero. -/
def wholePart (text : Text) : Option (Text × Text) :=
  match text.span Char.isDigit with
  | ([], _) => none
  | ('0' :: _ :: _, _) => none
  | (digits, after) => some (digits, after)

def numberText (text : Text) : Option (NumberText × Text) := do
  let (negative, text) := match text with
    | '-' :: rest => (true, rest)
    | _ => (false, text)
  let (whole, text) ← wholePart text
  let (fraction, text) ← fractionPart text
  let (exponent, text) ← exponentPart text
  return ({ negative, whole, fraction, exponent }, text)

/-! ## Values -/

def ofString : Option String → Json
  | some text => .string text
  | none => .unreadable

def ofNumber (number : NumberText) : Json :=
  match number.value? with
  | some value => .number value
  | none => .unreadable

/-- The value of an object that was read; a name that cannot be held makes it unreadable. -/
def ofMembers (members : List (Option String × Json)) : Json :=
  match members.mapM fun (name, value) => name.map (·, value) with
  | some members => .object members
  | none => .unreadable

mutual

/-- Reads a value; the number bounds the steps. -/
def value : Nat → Reader Json
  | 0, _ => none
  | steps + 1, text =>
    match skipGap text with
    | 'n' :: 'u' :: 'l' :: 'l' :: rest => some (.null, rest)
    | 't' :: 'r' :: 'u' :: 'e' :: rest => some (.bool true, rest)
    | 'f' :: 'a' :: 'l' :: 's' :: 'e' :: rest => some (.bool false, rest)
    | '"' :: rest =>
      match stringBody rest with
      | some (text, rest) => some (ofString text, rest)
      | none => none
    | '[' :: rest =>
      match skipGap rest with
      | ']' :: rest => some (.array [], rest)
      | rest =>
        match items steps rest with
        | some (items, rest) => some (.array items, rest)
        | none => none
    | '\x7b' :: rest =>
      match skipGap rest with
      | '\x7d' :: rest => some (.object [], rest)
      | rest =>
        match members steps rest with
        | some (members, rest) => some (ofMembers members, rest)
        | none => none
    | rest =>
      match numberText rest with
      | some (read, rest) => some (ofNumber read, rest)
      | none => none

def items : Nat → Reader (List Json)
  | 0, _ => none
  | steps + 1, text =>
    match value steps text with
    | none => none
    | some (item, rest) =>
      match skipGap rest with
      | ']' :: rest => some ([item], rest)
      | ',' :: rest =>
        match items steps rest with
        | some (others, rest) => some (item :: others, rest)
        | none => none
      | _ => none

def members : Nat → Reader (List (Option String × Json))
  | 0, _ => none
  | steps + 1, text =>
    match skipGap text with
    | '"' :: rest =>
      match stringBody rest with
      | none => none
      | some (name, rest) =>
        match skipGap rest with
        | ':' :: rest =>
          match value steps rest with
          | none => none
          | some (value, rest) =>
            match skipGap rest with
            | '\x7d' :: rest => some ([(name, value)], rest)
            | ',' :: rest =>
              match members steps rest with
              | some (others, rest) => some ((name, value) :: others, rest)
              | none => none
            | _ => none
        | _ => none
    | _ => none

end

/-- Reads a text that holds one value and nothing else. Every step but the one into a container
consumes a character, so the length of the text bounds their number. -/
def parse? (text : String) : Option Json :=
  let chars := text.toList
  match value (2 * chars.length + 2) chars with
  | some (value, rest) => if (skipGap rest).isEmpty then some value else none
  | none => none

end Reflow.Json
