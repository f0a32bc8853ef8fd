import Arbor.Frames
import Arbor.Number.Layout
import Arbor.Program

/-!
# Values

What expressions evaluate to.  Functions, classes and instances have an identity, a number that
no other of their kind shares, and are equal only to themselves.  Functions and classes never
change once made, so they are carried whole; an instance carries its class, and its fields,
which do change, are kept by the machine.

## Main definitions

* `Value`, `Closure`, `Class`, `Instance`.
* `Class.findMethod?`: the method a class has or inherits.
* `Value.text`, `Value.typeName`: what a program and a trace show of a value.
-/

namespace Arbor

/-- A function together with the frame it was made in. -/
structure Closure where
  id : Nat
  decl : FunDecl
  frame : FrameId
  /-- Whether it is the initializer of a class, which hands back the instance. -/
  isInitializer : Bool := false

namespace Closure

/-- The name of a function. -/
def name (c : Closure) : String :=
  c.decl.name.lexeme

/-- How many arguments a function takes. -/
def arity (c : Closure) : Nat :=
  c.decl.params.length

end Closure

/-- A class: its name, the class it inherits from, and its own methods. -/
structure Class where
  id : Nat
  name : String
  superclass : Option Class
  methods : Bindings Closure

namespace Class

/-- The method of a given name in the nearest class of the chain that declares it. -/
def findMethod? : Class → String → Option Closure
  | ⟨_, _, none, methods⟩, name => methods.get? name
  | ⟨_, _, some parent, methods⟩, name =>
    match methods.get? name with
    | some method => some method
    | none => parent.findMethod? name

/-- A method that a class has is its own or that of the class it inherits from. -/
theorem own_or_inherited {id : Nat} {name : String} {superclass : Option Class}
    {methods : Bindings Closure} {sought : String} {method : Closure}
    (found : findMethod? ⟨id, name, superclass, methods⟩ sought = some method) :
    methods.get? sought = some method ∨
      ∃ parent, superclass = some parent ∧ parent.findMethod? sought = some method := by
  cases superclass with
  | none => exact .inl found
  | some parent =>
    unfold findMethod? at found
    split at found
    · next own => exact .inl (own.trans found)
    · exact .inr ⟨parent, rfl, found⟩

/-- The initializer of a class. -/
def initializer? (c : Class) : Option Closure :=
  c.findMethod? "init"

/-- How many arguments a class takes to make an instance. -/
def arity (c : Class) : Nat :=
  match c.initializer? with
  | some init => init.arity
  | none => 0

end Class

/-- The identity and the class of an instance. -/
structure Instance where
  id : Nat
  ofClass : Class

/-- The functions that are there from the start. -/
inductive Native where
  | clock
deriving DecidableEq

namespace Native

/-- The name a native function is bound to. -/
def name : Native → String
  | clock => "clock"

/-- How many arguments a native function takes. -/
def arity : Native → Nat
  | clock => 0

end Native

/-- A value. -/
inductive Value where
  | nil
  | bool (b : Bool)
  | number (x : Float)
  | text (s : String)
  | closure (c : Closure)
  | cls (c : Class)
  | object (i : Instance)
  | native (n : Native)

instance : Inhabited Value := ⟨.nil⟩

namespace Value

/-- The value of a constant. -/
def ofConstant : Constant → Value
  | .nil => nil
  | .bool b => bool b
  | .number x => number x
  | .text s => text s

/-- Only `nil` and `false` count as false. -/
def isTruthy : Value → Bool
  | nil => false
  | bool b => b
  | _ => true

/-- Equality of values: plain values of one sort are compared by content, the others by
identity, and values of different sorts differ. -/
def isEqual : Value → Value → Bool
  | nil, nil => true
  | bool a, bool b => a == b
  | number a, number b => a == b
  | text a, text b => a == b
  | closure a, closure b => a.id == b.id
  | cls a, cls b => a.id == b.id
  | object a, object b => a.id == b.id
  | native a, native b => decide (a = b)
  | _, _ => false

/-- What printing a value shows. -/
def shown : Value → String
  | nil => "nil"
  | bool true => "true"
  | bool false => "false"
  | number x => Layout.printed.text x
  | text s => s
  | closure c => "<fn " ++ c.name ++ ">"
  | cls c => c.name
  | object i => i.ofClass.name ++ " instance"
  | native _ => "<native fn>"

/-- The word for the sort of a value. -/
def typeName : Value → String
  | nil => "nil"
  | bool _ => "boolean"
  | number _ => "number"
  | text _ => "string"
  | closure _ => "function"
  | cls _ => "class"
  | object _ => "instance"
  | native _ => "function"

/-- How many arguments a value takes when it is called, if it can be. -/
def arity? : Value → Option Nat
  | closure c => some c.arity
  | cls c => some c.arity
  | native n => some n.arity
  | _ => none

end Value
end Arbor
