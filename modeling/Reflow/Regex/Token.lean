import Reflow.Regex.Anchor
import Reflow.Regex.CharClass
import Reflow.Text.Letter

/-!
# Tokens of a pattern

A pattern is read token by token. A token is a character or class to match, a condition, a
repetition, or a piece of group structure. Every reader takes the characters that are left and
returns what it read together with the characters behind it, or nothing if the pattern is malformed.

Not all of the usual notation is covered. A pattern is refused as if it were malformed if it sets or
clears one of the switches `i`, `x` and `R`, clears `u`, or names a class by a property of its
characters (`\p`, `\P`).
-/

namespace Reflow.Regex

/-- Switches that a pattern can set for the rest of a group. -/
structure Flags where
  /-- The dot matches line breaks too. -/
  dotAll : Bool := false
  /-- The line anchors look at every line. -/
  multiLine : Bool := false
  /-- Repetitions are lazy unless marked. -/
  swapGreed : Bool := false
  deriving DecidableEq, Repr

inductive Token where
  | char (c : Char)
  | dot
  /-- A class, and how deep brackets are nested in it. -/
  | chars (members : CharClass) (height : Nat)
  | anchor (condition : Anchor)
  | caret
  | dollar
  /-- Opens a numbered group. -/
  | numbered (name : Option Text)
  /-- Opens a group without a number; the switches that it names are set or cleared inside. -/
  | opening (switches : List (Char × Bool))
  /-- Sets or clears switches for the rest of the group. -/
  | switches (changes : List (Char × Bool))
  | closing
  | bar
  | repetition (least : Nat) (most : Option Nat) (marked : Bool)
  deriving DecidableEq, Repr

abbrev Reader (α : Type) := Text → Option (α × Text)

def hexNumber? (digits : Text) : Option Nat :=
  digits.foldlM (fun value c => do return value * 16 + (← Text.hexValue? c)) 0

def charOfCode? (code : Nat) : Option Char :=
  if code.isValidChar then some (Char.ofNat code) else none

/-- Reads the code point of a hexadecimal escape: in braces, or with a fixed number of digits. -/
def hexEscape (digits : Nat) : Reader Char
  | '\x7b' :: rest =>
    match rest.span (· != '\x7d') with
    | ([], _) => none
    | (code, _ :: after) => do return (← charOfCode? (← hexNumber? code), after)
    | (_, []) => none
  | rest =>
    if rest.length < digits then none
    else do return (← charOfCode? (← hexNumber? (rest.take digits)), rest.drop digits)

/-- The punctuation that stands for itself behind a backslash. -/
def isEscapable (c : Char) : Bool :=
  c.toNat < 0x80 && !c.isAlphanum && c != '<' && c != '>'

/-- What a backslash and the characters behind it stand for. -/
inductive Escape where
  | char (c : Char)
  | chars (members : CharClass)
  | anchor (condition : Anchor)

/-- Reads the qualifier of a word boundary, if there is one. -/
def boundaryKind (rest : Text) : Option (Anchor × Text) :=
  match rest with
  | '\x7b' :: inner =>
    match inner.span (fun c => c.isAlpha || c == '-') with
    | ([], _) => some (.wordBoundary, rest)
    | (name, '\x7d' :: after) =>
      if name = "start".toList then some (.wordStart, after)
      else if name = "end".toList then some (.wordEnd, after)
      else if name = "start-half".toList then some (.wordStartHalf, after)
      else if name = "end-half".toList then some (.wordEndHalf, after)
      else none
    | _ => none
  | _ => some (.wordBoundary, rest)

/-- Reads what follows a backslash. -/
def escape : Reader Escape
  | [] => none
  | c :: rest =>
    match c with
    | 'd' => some (.chars .digit, rest)
    | 'D' => some (.chars (.complement .digit), rest)
    | 's' => some (.chars .blank, rest)
    | 'S' => some (.chars (.complement .blank), rest)
    | 'w' => some (.chars .word, rest)
    | 'W' => some (.chars (.complement .word), rest)
    | 'a' => some (.char '\x07', rest)
    | 'f' => some (.char '\x0c', rest)
    | 't' => some (.char '\t', rest)
    | 'n' => some (.char '\n', rest)
    | 'r' => some (.char '\r', rest)
    | 'v' => some (.char '\x0b', rest)
    | 'x' => do
      let (c, after) ← hexEscape 2 rest
      return (.char c, after)
    | 'u' => do
      let (c, after) ← hexEscape 4 rest
      return (.char c, after)
    | 'U' => do
      let (c, after) ← hexEscape 8 rest
      return (.char c, after)
    | 'A' => some (.anchor .textStart, rest)
    | 'z' => some (.anchor .textEnd, rest)
    | 'b' => do
      let (condition, after) ← boundaryKind rest
      return (.anchor condition, after)
    | 'B' => some (.anchor .noWordBoundary, rest)
    | '<' => some (.anchor .wordStart, rest)
    | '>' => some (.anchor .wordEnd, rest)
    | c => if isEscapable c then some (.char c, rest) else none

/-! ## Bracketed classes -/

inductive SetOp where
  | inter
  | diff
  | symmDiff
  deriving DecidableEq, Repr

def SetOp.apply : SetOp → CharClass → CharClass → CharClass
  | inter => CharClass.inter
  | diff => CharClass.diff
  | symmDiff => CharClass.symmDiff

/-- A part of a bracketed class, and how deep brackets are nested in it. -/
structure Part where
  members : CharClass
  height : Nat := 0

/-- The height of what holds other things: one more than the highest of them. -/
def heightAbove (heights : List Nat) : Nat := heights.foldl max 0 + 1

/-- Some parts together. Several parts are one level higher than the highest of them. -/
def Part.together : List Part → Part
  | [] => ⟨.none, 0⟩
  | [part] => part
  | parts => ⟨.unions (parts.map Part.members), heightAbove (parts.map Part.height)⟩

/-- An open bracket: what was read behind it so far. -/
structure Bracket where
  negated : Bool
  /-- The left side of a set operation whose right side is being read. -/
  pending : Option (SetOp × Part) := none
  /-- The parts of the current side, last one first. -/
  parts : List Part := []

def Bracket.side (bracket : Bracket) : Part :=
  let right := Part.together bracket.parts.reverse
  match bracket.pending with
  | some (op, left) =>
    ⟨op.apply left.members right.members, heightAbove [left.height, right.height]⟩
  | none => right

def Bracket.close (bracket : Bracket) : Part :=
  let ⟨members, height⟩ := bracket.side
  ⟨if bracket.negated then .complement members else members, height + 1⟩

def Bracket.push (bracket : Bracket) (part : Part) : Bracket :=
  { bracket with parts := part :: bracket.parts }

/-- Ends the current side with a set operation. -/
def Bracket.operate (bracket : Bracket) (op : SetOp) : Bracket :=
  { bracket with pending := some (op, bracket.side), parts := [] }

/-- Reads the front of a bracket: its negation, then hyphens and one closing bracket that stand for
themselves. -/
def openBracket (rest : Text) : Bracket × Text :=
  let (negated, rest) := match rest with
    | '^' :: after => (true, after)
    | _ => (false, rest)
  let (hyphens, rest) := rest.span (· == '-')
  let parts := hyphens.map fun c => (⟨.single c, 0⟩ : Part)
  match parts, rest with
  | [], ']' :: after => ({ negated, parts := [⟨.single ']', 0⟩] }, after)
  | _, _ => ({ negated, parts }, rest)

def namedClass? (name : Text) : Option CharClass :=
  let range := CharClass.range
  let letters := CharClass.union (range 'a' 'z') (range 'A' 'Z')
  match String.ofList name with
  | "alnum" => some (.union letters (range '0' '9'))
  | "alpha" => some letters
  | "ascii" => some (range '\x00' '\x7f')
  | "blank" => some (.union (.single '\t') (.single ' '))
  | "cntrl" => some (.union (range '\x00' '\x1f') (.single '\x7f'))
  | "digit" => some (range '0' '9')
  | "graph" => some (range '!' '~')
  | "lower" => some (range 'a' 'z')
  | "print" => some (range ' ' '~')
  | "punct" =>
    some (.unions [range '!' '/', range ':' '@', range '[' '\x60', range '\x7b' '~'])
  | "space" => some (.union (range '\t' '\r') (.single ' '))
  | "upper" => some (range 'A' 'Z')
  | "word" => some (.unions [letters, range '0' '9', .single '_'])
  | "xdigit" => some (.unions [range '0' '9', range 'A' 'F', range 'a' 'f'])
  | _ => none

/-- Reads a named class behind its opening bracket, if there is one. -/
def namedClass : Reader CharClass
  | ':' :: rest =>
    let (negated, rest) := match rest with
      | '^' :: after => (true, after)
      | _ => (false, rest)
    match rest.span (· != ':') with
    | (name, ':' :: ']' :: after) => do
      let members ← namedClass? name
      return (if negated then .complement members else members, after)
    | _ => none
  | _ => none

/-- Reads one member of a bracket: a character, or an escaped character or class. -/
def bracketMember : Reader (Char ⊕ CharClass)
  | [] => none
  | '\\' :: rest =>
    match escape rest with
    | some (.char c, after) => some (.inl c, after)
    | some (.chars members, after) => some (.inr members, after)
    | _ => none
  | c :: rest => some (.inl c, rest)

def memberClass : Char ⊕ CharClass → CharClass
  | .inl c => .single c
  | .inr members => members

/-- Reads a member or a range of a bracket. -/
def bracketRange (rest : Text) : Option (CharClass × Text) := do
  let (first, after) ← bracketMember rest
  match after with
  | [] => none
  | '-' :: next :: _ =>
    if next = ']' || next = '-' then return (memberClass first, after)
    let (last, after) ← bracketMember (after.drop 1)
    match first, last with
    | .inl lo, .inl hi => if lo.toNat ≤ hi.toNat then some (.range lo hi, after) else none
    | _, _ => none
  | ['-'] => none
  | _ => return (memberClass first, after)

/-- Reads a bracketed class behind its opening bracket. `outer` holds the brackets around the
current one; the number bounds the characters to read. -/
def bracketClass (current : Bracket) (outer : List Bracket) : Nat → Reader Part
  | 0, _ => none
  | _ + 1, [] => none
  | size + 1, ']' :: rest =>
    match outer with
    | [] => some (current.close, rest)
    | parent :: outer => bracketClass (parent.push current.close) outer size rest
  | size + 1, '[' :: rest =>
    match namedClass rest with
    | some (members, after) => bracketClass (current.push ⟨members, 0⟩) outer size after
    | none =>
      let (inner, after) := openBracket rest
      bracketClass inner (current :: outer) size after
  | size + 1, '&' :: '&' :: rest => bracketClass (current.operate .inter) outer size rest
  | size + 1, '-' :: '-' :: rest => bracketClass (current.operate .diff) outer size rest
  | size + 1, '~' :: '~' :: rest => bracketClass (current.operate .symmDiff) outer size rest
  | size + 1, rest =>
    match bracketRange rest with
    | some (members, after) => bracketClass (current.push ⟨members, 0⟩) outer size after
    | none => none

/-! ## Repetitions and groups -/

/-- Reads a decimal number with blanks around it. -/
def decimal (rest : Text) : Option (Nat × Text) :=
  let (digits, after) := (rest.dropWhile Text.isBlank).span Char.isDigit
  let value := digits.foldl (fun value c => value * 10 + (c.toNat - '0'.toNat)) 0
  if digits.isEmpty || 0x100000000 ≤ value then none
  else some (value, after.dropWhile Text.isBlank)

/-- Reads a counted repetition behind its opening brace. -/
def counted (rest : Text) : Option ((Nat × Option Nat) × Text) := do
  let (least, rest) ← decimal rest
  match rest with
  | '\x7d' :: after => some ((least, some least), after)
  | ',' :: '\x7d' :: after => some ((least, none), after)
  | ',' :: rest =>
    let (most, rest) ← decimal rest
    match rest with
    | '\x7d' :: after => if least ≤ most then some ((least, some most), after) else none
    | _ => none
  | _ => none

def lazyMark : Text → Bool × Text
  | '?' :: rest => (true, rest)
  | rest => (false, rest)

/-- Reads switches up to the end of the group or to its colon; the flag says whether a colon ended
them. -/
def switches (value : Bool) (seen : List (Char × Bool)) :
    Text → Option ((List (Char × Bool) × Bool) × Text)
  | [] => none
  | c :: rest =>
    if c = ')' || c = ':' then
      if seen.isEmpty && c = ')' then none
      else some ((seen.reverse, c = ':'), rest)
    else if c = '-' then
      if value && !(rest.head? == some ')' || rest.head? == some ':') then switches false seen rest
      else none
    else if c = 's' || c = 'm' || c = 'U' || (c = 'u' && value) then
      if seen.any (·.1 == c) then none else switches value ((c, value) :: seen) rest
    else none

def isNameChar (first : Bool) (c : Char) : Bool :=
  Text.isLetter c || c == '_' ||
    (!first && (Text.isNumber c || c == '.' || c == '[' || c == ']'))

def groupName (rest : Text) : Option (Text × Text) :=
  match rest.span (· != '>') with
  | (first :: name, _ :: after) =>
    if isNameChar true first && name.all (isNameChar false) then some (first :: name, after)
    else none
  | _ => none

def groupFront : Reader Token
  | '?' :: 'P' :: '<' :: rest => do
    let (name, after) ← groupName rest
    return (.numbered (some name), after)
  | '?' :: '<' :: rest => do
    let (name, after) ← groupName rest
    return (.numbered (some name), after)
  | '?' :: rest => do
    let ((changes, colon), after) ← switches true [] rest
    return (if colon then .opening changes else .switches changes, after)
  | rest => some (.numbered none, rest)

def token : Reader Token
  | [] => none
  | c :: rest =>
    match c with
    | '(' => groupFront rest
    | ')' => some (.closing, rest)
    | '|' => some (.bar, rest)
    | '.' => some (.dot, rest)
    | '^' => some (.caret, rest)
    | '$' => some (.dollar, rest)
    | '[' => do
      let (bracket, after) := openBracket rest
      let (part, after) ← bracketClass bracket [] (rest.length + 1) after
      return (.chars part.members part.height, after)
    | '*' =>
      let (marked, after) := lazyMark rest
      some (.repetition 0 none marked, after)
    | '+' =>
      let (marked, after) := lazyMark rest
      some (.repetition 1 none marked, after)
    | '?' =>
      let (marked, after) := lazyMark rest
      some (.repetition 0 (some 1) marked, after)
    | '\x7b' => do
      let ((least, most), after) ← counted rest
      let (marked, after) := lazyMark after
      return (.repetition least most marked, after)
    | '\\' =>
      match escape rest with
      | some (.char c, after) => some (.char c, after)
      | some (.chars members, after) => some (.chars members 0, after)
      | some (.anchor condition, after) => some (.anchor condition, after)
      | none => none
    | c => some (.char c, rest)

/-- Reads tokens to the end of a pattern; the number bounds how many. -/
def tokensWithin : Nat → Text → Option (List Token)
  | _, [] => some []
  | 0, _ :: _ => none
  | size + 1, rest => do
    let (first, after) ← token rest
    let others ← tokensWithin size after
    return first :: others

/-- The tokens of a pattern. Every token takes at least one character, so the length of the pattern
bounds their number. -/
def tokens (pattern : Text) : Option (List Token) := tokensWithin pattern.length pattern

end Reflow.Regex
