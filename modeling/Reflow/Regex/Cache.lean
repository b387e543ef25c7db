import Reflow.Regex.Pattern

/-!
# Compiled patterns

Patterns that were compiled before are kept. Malformed ones are not.
-/

namespace Reflow.Regex

/-- Compiled patterns, the latest one first. -/
structure Cache where
  entries : List (String × Machine) := []

namespace Cache

def size (cache : Cache) : Nat := cache.entries.length

/-- The machine of a pattern, which is compiled unless it was before. -/
def compile? (cache : Cache) (pattern : String) : Option Machine × Cache :=
  match cache.entries.lookup pattern with
  | some machine => (some machine, cache)
  | none =>
    match anchored? pattern with
    | some machine => (some machine, ⟨(pattern, machine) :: cache.entries⟩)
    | none => (none, cache)

end Cache

end Reflow.Regex
