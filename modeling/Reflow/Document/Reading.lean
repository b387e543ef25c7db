import Reflow.Document.Error
import Reflow.Grammar.Builder
import Reflow.Parsing.Packrat

/-!
# Reading documents

A document is read by parsing it with a grammar and taking what was captured out of the tree.
-/

namespace Reflow.Document

/-- Parses a text with a grammar and reads the tree. -/
def readWith {α : Type} (grammar : Except GrammarFault Grammar) (read : Tree → α)
    (text : Text) : Except FormatError α :=
  match grammar with
  | .error fault => .error (.engine (.invalidGrammar fault))
  | .ok grammar =>
    match grammar.parse text with
    | .ok tree => .ok (read tree)
    | .error error => .error (.ofParse text error)

end Reflow.Document
