import Reflow.Document.Block.Basic
import Reflow.Document.Pattern
import Reflow.Layout.Margin

/-!
# Writing block comments

The text of a block comment. Parameter runs are tidied first, then every paragraph is laid out by
its kind.
-/

namespace Reflow.Document.Block

open Text Layout

/-- An optional separator as elements of the body. -/
def separators : Option Text → List BlockItem
  | some line => [.separator line]
  | none => []

def tidyItem (policy : UnnamedPolicy) : BlockItem → List BlockItem
  | .paragraph (.parameters entries) =>
    let run := tidyRun policy entries
    let kept := if run.entries.isEmpty then [] else [.paragraph (.parameters run.entries)]
    separators run.leading ++ kept ++ separators run.trailing
  | item => [item]

/-- Applies a policy to every parameter run; separators that come to stand together are reduced to
the first one. -/
def normalize (policy : UnnamedPolicy) (items : List BlockItem) : List BlockItem :=
  collapse BlockItem.isSeparator (items.flatMap (tidyItem policy))

/-- The header of a construct: its marker and a space, or nothing. -/
def headerOf (kind : Construct) : Text :=
  match kind.marker.toList with
  | [] => []
  | marker => marker ++ [' ']

def spacedWords (words : List Text) : Text := words.flatMap (' ' :: ·)

/-- Writes a construct with its text below. Words that may not begin a line stay behind the
marker. -/
def composeBreaking (ctx : Context) (kind : Construct) (lines : List TagLine) : Text :=
  let first := lines.head?.getD {}
  let argument := if first.argument.isEmpty then [] else ' ' :: first.argument
  let (held, body) := ctx.splitStickyLead (joinLines lines)
  let head := first.lead ++ kind.marker.toList ++ argument ++ spacedWords held
  Layout.breaking ctx head (first.lead ++ ['\t']) body

/-- Writes fenced code, its lines one tab deeper than the fences. -/
def composeCode (header : TagLine) (body : List (Option Text)) (close : Text) :
    Text :=
  let lines := dedent (body.map (·.getD []))
  header.lead ++ "@code".toList ++ header.argument ++ ['\n'] ++
    lines.flatMap (fun line => trimEnd (header.lead ++ '\t' :: line) ++ ['\n']) ++ close

def composeReference (kind : Construct) (line : TagLine) : Text :=
  let contents := trim line.contents
  let tail := if contents.isEmpty then [] else ' ' :: contents
  line.lead ++ kind.marker.toList ++ tail ++ ['\n']

def composeParagraph (ctx : Context) : Paragraph → Text
  | .contiguous kind lines =>
    Layout.contiguous ctx (leadOf lines) (headerOf kind) (joinLines lines)
  | .parameters entries => composeRun ctx entries
  | .breaking kind lines => composeBreaking ctx kind lines
  | .code header body close => composeCode header body close
  | .reference kind line => composeReference kind line
  | .listItems items => items.flatMap (ListItem.compose ctx)
  | .verbatim _ text => text

def composeItem (ctx : Context) : BlockItem → Text
  | .separator line => line
  | .paragraph content => composeParagraph ctx content

def compose (style : Style) (comment : BlockComment) : Text :=
  let ctx : Context := { style, sticky := opensConstruct }
  comment.start ++ comment.items.flatMap (composeItem ctx) ++ comment.stop

end Reflow.Document.Block
