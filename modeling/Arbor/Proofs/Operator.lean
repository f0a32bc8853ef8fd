import Arbor.Operator
import Arbor.Proofs.Program.Formed

/-!
# What operators come to

Operators make plain values out of any: what they return is never a function, a class or an
instance.  The operators of the language, the ones that well-formed trees hold, are all known, so
they raise errors of the program at most.

## Main statements

* `Operator.isPlain_applyUnary`, `Operator.isPlain_applyBinary`: results are plain.
* `Operator.applyUnary_ne_fault`, `Operator.applyBinary_ne_fault`: known operators raise no fault.
-/

namespace Arbor

/-- A value that is no function, class or instance. -/
def Value.isPlain : Value → Bool
  | .nil | .bool _ | .number _ | .text _ => true
  | _ => false

namespace Operator

variable {operator : Token} {left right v : Value} {fault : Fault}

/-- A prefix operator returns a truth value or a number. -/
theorem isPlain_applyUnary (applied : applyUnary operator right = .ok v) : v.isPlain = true := by
  unfold applyUnary at applied
  split at applied
  · split at applied <;> cases applied
    rfl
  · cases applied
    rfl
  · cases applied

/-- A sum is a number or a text. -/
theorem isPlain_add (added : add left right = .ok v) : v.isPlain = true := by
  unfold add at added
  split at added <;> cases added <;> rfl

theorem isPlain_arithmetic {a b : Float} (computed : arithmetic operator a b = .ok v) :
    v.isPlain = true := by
  unfold arithmetic at computed
  split at computed
  case h_3 => split at computed <;> cases computed; rfl
  all_goals first | (cases computed; rfl) | cases computed

/-- An operator returns a number, a text or a truth value, whatever its operands are.  So nothing
that was made by the program passes through an operator. -/
theorem isPlain_applyBinary (applied : applyBinary operator left right = .ok v) :
    v.isPlain = true := by
  unfold applyBinary at applied
  split at applied
  · exact isPlain_add applied
  · cases applied
    rfl
  · cases applied
    rfl
  · split at applied
    · exact isPlain_arithmetic applied
    · cases applied

/-- The two prefix operators of the language are known; operands that do not fit them are errors of
the program. -/
theorem applyUnary_ne_fault (known : operator.kind = .bang ∨ operator.kind = .minus) :
    applyUnary operator right ≠ .error (.fault fault) := by
  unfold applyUnary
  rcases known with known | known
  · rw [known]
    intro same
    cases same
  · rw [known]
    intro same
    cases right <;> cases same

/-- So are the operators between two operands: one that the parser makes a tree of is one of those
that are told apart here. -/
theorem applyBinary_ne_fault (known : operator.kind.isBinary = true) :
    applyBinary operator left right ≠ .error (.fault fault) := by
  intro same
  unfold applyBinary at same
  split at same
  · unfold add at same
    split at same <;> cases same
  · cases same
  · cases same
  · split at same
    · unfold arithmetic at same
      split at same
      case h_3 => split at same <;> cases same
      case h_8 =>
        revert known
        unfold Token.Kind.isBinary
        split <;> simp_all
      all_goals cases same
    · cases same

end Operator
end Arbor
