import Reflow.Text.Basic
import Reflow.Text.Printable

/-!
# Quoted texts

The form in which diagnostics show a piece of text: between double quotes, on one line, with every
character that would not show written as an escape.
-/

namespace Reflow.Text

/-- The lower-case hexadecimal digits of a code point, without padding. -/
def hexDigits (n : Nat) : Text := Nat.toDigits 16 n

def quoteChar (c : Char) : Text :=
  if c = '"' then ['\\', '"']
  else if c = '\\' then ['\\', '\\']
  else if c = '\n' then ['\\', 'n']
  else if c = '\t' then ['\\', 't']
  else if c = '\r' then ['\\', 'r']
  else if c = '\x00' then ['\\', '0']
  else if isPrintable c then [c]
  else ['\\', 'u', '\x7b'] ++ hexDigits c.toNat ++ ['\x7d']

def quoted (text : Text) : String :=
  String.ofList ('"' :: text.flatMap quoteChar ++ ['"'])

end Reflow.Text
