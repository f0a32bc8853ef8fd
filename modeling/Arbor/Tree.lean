import Arbor.Json
import Arbor.Number.Binary64
import Arbor.Number.Integer
import Arbor.Number.Layout
import Arbor.Program.NodeKind

/-!
# Stored trees

A tree as it is stored: nodes with their fields in a fixed order, tokens, lists and plain values,
and nothing said about what may stand where.  Loading a tree from JSON checks that every node
has a known kind and all its fields; numbers outside tokens become doubles, the line of a token
becomes an integer, and members that belong to no field are not looked at.

## Main definitions

* `Tree.ofJson`, `Tree.toJson`: loading and storing.
* `Tree.ofPlain`: plain values, the only ones that can be stored as they are.
-/

namespace Arbor

/-- Why a tree cannot be loaded or stored. -/
inductive TreeError where
  /-- No node has this kind. -/
  | unknownKind (shown : String)
  /-- A kind cannot be a list or an object. -/
  | kindNotScalar
  | missingField
  | missingTokenPart
  /-- The line of a token is a value that no integer can be made of. -/
  | lineNotNumeric
  /-- The line of a token is a text or a number that does not denote an integer. -/
  | lineNotInteger
  /-- A number is beyond the range it has to fit in. -/
  | numberTooLarge
  /-- A value that is not part of any tree. -/
  | notStorable (type : String)
deriving DecidableEq

namespace TreeError

/-- The wording of the errors that have one. -/
def message? : TreeError → Option String
  | unknownKind shown => some ("Unknown AST node type: " ++ shown)
  | notStorable type => some ("Unsupported node for serialization: " ++ type)
  | _ => none

end TreeError

/-- A token as it is stored; its kind, lexeme and value may be anything. -/
structure StoredToken where
  kind : Json
  lexeme : Json
  literal : Json
  line : Int
deriving Inhabited

/-- A stored tree.  The parts of a node are in the order of its fields. -/
inductive Tree where
  | null
  | bool (b : Bool)
  | number (x : Float)
  | text (s : String)
  | list (items : List Tree)
  | token (t : StoredToken)
  | node (kind : NodeKind) (parts : List Tree)
deriving Inhabited

namespace Tree

/-! ### Storing -/

/-- A token as a JSON object. -/
def tokenToJson (t : StoredToken) : Json :=
  .obj [("__type__", .str "Token"), ("type", t.kind), ("lexeme", t.lexeme),
    ("literal", t.literal), ("line", .int t.line)]

mutual

/-- A tree as a JSON value. -/
def toJson : Tree → Json
  | null => .null
  | bool b => .bool b
  | number x => .float x
  | text s => .str s
  | list items => .arr (listToJson items)
  | token t => tokenToJson t
  | node kind parts => .obj (("type", .str kind.name) :: kind.fields.zip (listToJson parts))

/-- Trees as JSON values. -/
def listToJson : List Tree → List Json
  | [] => []
  | t :: rest => t.toJson :: listToJson rest

end

/-! ### Numbers -/

/-- The double nearest to an integer, if there is a finite one. -/
def doubleOfInt (n : Int) : Except TreeError Float :=
  let pattern := Binary64.ofFraction n.natAbs 1
  if pattern = Binary64.infinityPattern then .error .numberTooLarge
  else
    let magnitude := Float.ofBits (UInt64.ofNat pattern)
    .ok (if n < 0 then -magnitude else magnitude)

/-- The integer part of a double. -/
def truncate (x : Float) : Except TreeError Int :=
  let pattern := x.toBits.toNat
  let unsigned := Binary64.unsigned pattern
  if Binary64.infinityPattern < unsigned then .error .lineNotInteger
  else if unsigned = Binary64.infinityPattern then .error .numberTooLarge
  else
    let value := Binary64.magnitude pattern
    let whole : Int := value.numerator / value.denominator
    .ok (if Binary64.isNegative pattern then -whole else whole)

/-- The line of a token, made an integer. -/
def lineOfJson : Json → Except TreeError Int
  | .int n => .ok n
  | .bool b => .ok (if b then 1 else 0)
  | .float x => truncate x
  | .str s =>
    match Integer.read? s.toList with
    | some n => .ok n
    | none => .error .lineNotInteger
  | _ => .error .lineNotNumeric

/-! ### Loading -/

/-- How a value without parts is shown where a name is asked for. -/
def scalarText? : Json → Option String
  | .null => some "None"
  | .bool true => some "True"
  | .bool false => some "False"
  | .int n => some (toString n)
  | .float x => some (Layout.listed.text x)
  | .str s => some s
  | .arr _ | .obj _ => none

/-- The kind of node that a value names. -/
def kindNamed : Json → Except TreeError NodeKind
  | .str name =>
    match NodeKind.ofName? name with
    | some kind => .ok kind
    | none => .error (.unknownKind name)
  | other =>
    match scalarText? other with
    | some shown => .error (.unknownKind shown)
    | none => .error .kindNotScalar

/-- The kind of the node an object describes. -/
def kindOf (members : List (String × Json)) : Except TreeError NodeKind :=
  kindNamed ((Json.member? "type" members).getD .null)

/-- Whether an object describes a token. -/
def isToken (members : List (String × Json)) : Bool :=
  match Json.member? "__type__" members with
  | some (.str tag) => tag == "Token"
  | _ => false

/-- The part of a token that has to be there. -/
def tokenPart (name : String) (members : List (String × Json)) : Except TreeError Json :=
  match Json.member? name members with
  | some value => .ok value
  | none => .error .missingTokenPart

/-- The token an object describes. -/
def tokenOf (members : List (String × Json)) : Except TreeError StoredToken := do
  let kind ← tokenPart "type" members
  let lexeme ← tokenPart "lexeme" members
  let line ← lineOfJson (← tokenPart "line" members)
  pure ⟨kind, lexeme, (Json.member? "literal" members).getD .null, line⟩

/-- The loaded parts for the given fields; a field that is not there has none. -/
def gather (loaded : List (String × Except TreeError Tree)) :
    List String → Except TreeError (List (Option Tree))
  | [] => pure []
  | field :: rest => do
    let part ←
      match loaded.lookup field with
      | some result => some <$> result
      | none => pure none
    return part :: (← gather loaded rest)

/-- The node or token an object describes, given what its members load as. -/
def assemble (members : List (String × Json)) (loaded : List (String × Except TreeError Tree)) :
    Except TreeError Tree := do
  if isToken members then token <$> tokenOf members
  else
    let kind ← kindOf members
    let parts ← gather loaded kind.fields
    if parts.all Option.isSome then pure (node kind (parts.filterMap id))
    else throw .missingField

mutual

/-- Loads a tree.  What is wrong first, in the order of fields, is the error. -/
def ofJson : Json → Except TreeError Tree
  | .null => .ok null
  | .bool b => .ok (bool b)
  | .int n => number <$> doubleOfInt n
  | .float x => .ok (number x)
  | .str s => .ok (text s)
  | .arr elements => list <$> listOfJson elements
  | .obj members => assemble members (membersOfJson members)

/-- Loads the elements of a list. -/
def listOfJson : List Json → Except TreeError (List Tree)
  | [] => .ok []
  | element :: rest => do
    let first ← ofJson element
    return first :: (← listOfJson rest)

/-- Loads each member on its own. -/
def membersOfJson : List (String × Json) → List (String × Except TreeError Tree)
  | [] => []
  | (key, value) :: rest => (key, ofJson value) :: membersOfJson rest

end

/-! ### Plain values -/

mutual

/-- A value without nodes as a tree.  Integers and objects are not part of any tree. -/
def ofPlain : Json → Except TreeError Tree
  | .null => .ok null
  | .bool b => .ok (bool b)
  | .int _ => .error (.notStorable "int")
  | .float x => .ok (number x)
  | .str s => .ok (text s)
  | .arr elements => list <$> listOfPlain elements
  | .obj _ => .error (.notStorable "dict")

/-- Values without nodes as trees. -/
def listOfPlain : List Json → Except TreeError (List Tree)
  | [] => .ok []
  | element :: rest => do
    let first ← ofPlain element
    return first :: (← listOfPlain rest)

end

end Tree
end Arbor
