namespace Reflow

/-- A text, character by character. -/
abbrev Text := List Char

end Reflow
