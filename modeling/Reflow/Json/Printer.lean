import Reflow.Json.Basic
import Reflow.Json.Real

/-!
# Writing JSON

Values are written without blanks. Strings escape the quote, the backslash and control characters
below the space, and keep everything else as it is.
-/

namespace Reflow.Json

def hexDigit (n : Nat) : Char := Nat.digitChar n

def escapeChar (c : Char) : Text :=
  if c = '"' then ['\\', '"']
  else if c = '\\' then ['\\', '\\']
  else if c = '\x08' then ['\\', 'b']
  else if c = '\x0c' then ['\\', 'f']
  else if c = '\n' then ['\\', 'n']
  else if c = '\r' then ['\\', 'r']
  else if c = '\t' then ['\\', 't']
  else if c.toNat < 0x20 then
    ['\\', 'u', '0', '0', hexDigit (c.toNat / 16), hexDigit (c.toNat % 16)]
  else [c]

def writeString (text : String) : Text :=
  '"' :: text.toList.flatMap escapeChar ++ ['"']

def writeNat (n : Nat) : Text := Nat.toDigits 10 n

def writeNumber : JsonNumber → Text
  | .natural value => writeNat value
  | .negative magnitude => '-' :: writeNat magnitude
  | .real bits => Real.write bits

def commaSeparated : List Text → Text
  | [] => []
  | [text] => text
  | text :: rest => text ++ ',' :: commaSeparated rest

def writeArray (items : List Text) : Text := '[' :: commaSeparated items ++ [']']

def writeObject (members : List (String × Text)) : Text :=
  '\x7b' ::
    commaSeparated (members.map fun (name, value) => writeString name ++ ':' :: value) ++ ['\x7d']

mutual

def write : Json → Text
  | null => ['n', 'u', 'l', 'l']
  | bool true => ['t', 'r', 'u', 'e']
  | bool false => ['f', 'a', 'l', 's', 'e']
  | number value => writeNumber value
  | string text => writeString text
  | array items => writeArray (writeAll items)
  | object members => writeObject (writeMembers members)
  | unreadable => ['n', 'u', 'l', 'l']

def writeAll : List Json → List Text
  | [] => []
  | item :: rest => write item :: writeAll rest

def writeMembers : List (String × Json) → List (String × Text)
  | [] => []
  | (name, value) :: rest => (name, write value) :: writeMembers rest

end

def text (value : Json) : String := String.ofList (write value)

end Reflow.Json
