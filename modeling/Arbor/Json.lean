/-!
# JSON values

The text format of stored trees.  A number written without a point or an exponent is an integer
and stays one; all others are doubles.  Members keep their order.
-/

namespace Arbor

/-- A JSON value. -/
inductive Json where
  | null
  | bool (b : Bool)
  | int (n : Int)
  | float (x : Float)
  | str (s : String)
  | arr (elements : List Json)
  | obj (members : List (String × Json))
deriving Inhabited

namespace Json

/-- The member of a given name. -/
def member? (name : String) : List (String × Json) → Option Json
  | [] => none
  | (key, value) :: rest => if key = name then some value else member? name rest

/-- The member of a given name, if the value is an object and has it. -/
def get? : Json → String → Option Json
  | obj members, name => member? name members
  | _, _ => none

end Json
end Arbor
