/-!
# Limits

Bounds on the size of an input and on the nesting of rules. Zero means no bound.
-/

namespace Reflow

/-- The bytes that an input may have if no other limit is set. -/
def inputLimit : Nat := 100 * 1024 * 1024

@[simp] theorem inputLimit_pos : 0 < inputLimit := by decide

structure Limits where
  /-- Largest input, in bytes. -/
  inputSize : Nat := inputLimit
  /-- Deepest nesting of rules. -/
  depth : Nat := 1000
  deriving DecidableEq, Repr

def Limits.refusesSize (limits : Limits) (size : Nat) : Bool :=
  0 < limits.inputSize && limits.inputSize < size

def Limits.refusesDepth (limits : Limits) (depth : Nat) : Bool :=
  0 < limits.depth && limits.depth < depth

end Reflow
