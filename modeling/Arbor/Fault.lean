import Arbor.Program

/-!
# Faults

A fault is a broken assumption of the machine itself, not an error of the program that runs:
a resolved name that is not where it was resolved to, a jump that nobody handles, or a tree
with something unexpected in it.  No program that was read from text and resolved without a
report should raise one; trees from storage and unresolved programs may.
-/

namespace Arbor

/-- The stages that walk over a tree. -/
inductive Stage where
  | resolve
  | execute
  | evaluate
deriving DecidableEq

/-- The word for a stage. -/
def Stage.word : Stage → String
  | resolve => "resolve"
  | execute => "execute"
  | evaluate => "evaluate"

/-- The ways in which a statement hands control to something around it. -/
inductive Jump where
  | ret
  | brk
  | cont
deriving DecidableEq

/-- The word for a jump. -/
def Jump.word : Jump → String
  | ret => "ReturnSignal"
  | brk => "BreakSignal"
  | cont => "ContinueSignal"

/-- A broken assumption. -/
inductive Fault where
  /-- A walk outward ran out of frames. -/
  | noFrame (distance : Int)
  /-- A frame does not hold the name that was resolved to it. -/
  | nameMissing (name : String) (distance : Int)
  | escapedToTop (jump : Jump)
  | escapedFunction (jump : Jump) (function : String)
  | unknownUnary (lexeme : String)
  | unknownBinary (lexeme : String)
  /-- A `super` expression was never resolved. -/
  | superUnresolved
  /-- A stage reached something it has no rule for. -/
  | unexpected (stage : Stage) (what : Foreign)
  /-- A node of a stored tree has a part that is of no use. -/
  | slot (fault : SlotFault)
  /-- Evaluation nests too deeply outside of any call. -/
  | tooDeep
deriving DecidableEq

namespace Fault

/-- The wording of the faults that have one. -/
def message? : Fault → Option String
  | noFrame distance => some ("no enclosing frame at distance " ++ toString distance)
  | nameMissing name distance =>
    some ("resolved name '" ++ name ++ "' missing at distance " ++ toString distance)
  | escapedToTop jump => some (jump.word ++ " escaped to top level")
  | escapedFunction jump function => some (jump.word ++ " escaped function " ++ function)
  | unknownUnary lexeme => some ("unknown unary operator " ++ lexeme)
  | unknownBinary lexeme => some ("unknown binary operator " ++ lexeme)
  | unexpected stage what =>
    some (stage.word ++ ": unexpected node type <class '" ++ what.qualifiedName ++ "'>")
  | superUnresolved | slot _ | tooDeep => none

/-- The fault of a stage that reaches a misfit. -/
def ofMisfit (stage : Stage) : Misfit → Fault
  | .unexpected what => unexpected stage what
  | .badSlot _ fault => slot fault

end Fault
end Arbor
