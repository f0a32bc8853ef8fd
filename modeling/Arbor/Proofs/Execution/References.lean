import Arbor.Proofs.Execution.Location

/-!
# References in frames that stand for scopes

Every reference that resolution filled in finds its name where it is located.  A variable and `this`
find it in the frame of the very scope in which the resolver found it; `super` finds its class, and
`this` one frame further in.  An assignment is the exception: it is not checked whether its name is
ready, and it finds the name exactly if it is.

## Main definitions

* `Finds`: what a reference finds at its distance.

## Main statements

* `ExprAt.var_found`, `ExprAt.this_found`, `ExprAt.super_found`: references that never miss.
* `ExprAt.assign_found`: assignments, which miss exactly the names that are not ready.
-/

namespace Arbor
namespace Execution

open Eval Stateful Scope

variable {h : History} {frames : Frames Value} {f : FrameId}

/-! ### Names that are found -/

/-- A reference at run time and where it was resolved: at a visit with as many scopes around it as
there are links to the globals. -/
structure Traced (h : History) (frames : Frames Value) (f : FrameId) (e : Expr)
    (sites : List Site) (s : State) : Prop where
  visit : ∃ context source s', h.seen ⟨sites, s, .expr context source⟩ ∧
    Yields (expr context source) s e s'
  depth : frames.ancestor? s.scopes.length f = some Machine.globals

/-- What a reference finds: the frame at its distance was made for the scope in which the resolver
found the name, and holds the name. -/
def Finds (h : History) (frames : Frames Value) (f : FrameId) (sites : List Site) (name : String)
    (d : Nat) : Prop :=
  ∃ g site, frames.ancestor? d f = some g ∧ sites[d]? = some site ∧ h.made site g ∧
    (frames.local? g name).isSome = true

/-- A name that is ready in the scope at a distance is held by the frame that goes with this
scope. -/
theorem finds_of_ready {sites : List Site} {scopes : List (Bindings Bool)} {scope : Bindings Bool}
    {name : String} {d : Nat} (stands : Stands h.made frames f sites scopes)
    (at_d : scopes[d]? = some scope) (holds : scope.contains name = true)
    (ready : scope.get? name ≠ some false) : Finds h frames f sites name d := by
  obtain ⟨g, site, reached, there, origin, held⟩ := stands.found at_d
  refine ⟨g, site, reached, there, origin, held name ?_⟩
  obtain ⟨value, found⟩ := Option.isSome_iff_exists.mp holds
  cases value with
  | true => exact found
  | false => exact absurd found ready

/-- A name that resolution found and that is not unready here is ready where it was found.  Only in
the innermost scope may a name be unready, and that is the one of which it was asked. -/
theorem ready_of_distance {inClass : Option ClassKind} {s : State} {name : String} {d : Nat}
    {scope : Bindings Bool} (ajar : Ajar inClass s.scopes)
    (ready : s.isUnready name = false) (at_d : s.scopes[d]? = some scope) :
    scope.get? name ≠ some false := by
  cases d with
  | succ d => exact ajar.ready_outside at_d name
  | zero =>
    intro unready
    unfold State.isUnready at ready
    cases scopes : s.scopes with
    | nil => simp [scopes] at at_d
    | cons first outer =>
      rw [scopes, List.getElem?_cons_zero, Option.some.injEq] at at_d
      rw [scopes] at ready
      simp [at_d, unready] at ready

theorem Located.traced {sites : List Site} {s s' : State} {context : Context} {source e : Expr}
    (located : Located h frames f ⟨sites, s, .expr context source⟩)
    (yields : Yields (expr context source) s e s') : Traced h frames f e sites s :=
  ⟨⟨context, source, s', located.seen, yields⟩, located.stands.ancestor?_length⟩

theorem length_introduce (names : List String) (scopes : List (Bindings Bool)) :
    (introduce names scopes).length = scopes.length := by
  cases scopes <;> rfl

/-- A new name does not change how far away the others are.  It is introduced into the innermost
scope, where they are found or not as before. -/
theorem distance?_introduce {name other : String} (differ : name ≠ other)
    (scopes : List (Bindings Bool)) :
    distance? (introduce [other] scopes) name = distance? scopes name := by
  cases scopes with
  | nil => rfl
  | cons scope outer =>
    have same : (List.foldl introduced scope [other]).contains name = scope.contains name :=
      contains_foldl_introduced (by simpa using differ)
    unfold distance? introduce
    rw [List.findIdx?_cons, List.findIdx?_cons, same]

namespace ExprAt

/-- A variable with a distance finds its name.  The name of a superclass is the exception in the
proof: it was resolved after the class had been declared, whose name is not bound yet, and is
another one. -/
theorem var_found {name : Token} {hops : Option Nat}
    (located : ExprAt h frames f (.var name hops)) :
    ∃ sites s, Traced h frames f (.var name hops) sites s ∧ hops = distance? s.scopes name.lexeme ∧
      ∀ d, hops = some d → Finds h frames f sites name.lexeme d := by
  cases located with
  | intro located yields =>
    refine ⟨_, _, located.traced yields, ?_⟩
    obtain ⟨formed, ⟨inClass, ajar, -⟩, -⟩ := h.regular located.seen
    cases yields.exprCase with
    | var ready =>
      refine ⟨rfl, fun d found => ?_⟩
      obtain ⟨scope, at_d, holds⟩ := distance?_eq_some found
      exact finds_of_ready located.stands at_d holds (ready_of_distance ajar ready at_d)
  | @parent sites s s' context name hops hops' scopes other inClass seen yields known differ
      orderly stands =>
    have depth : frames.ancestor? s.scopes.length f = some Machine.globals := by
      rw [known, length_introduce]
      exact stands.ancestor?_length
    refine ⟨sites, s, ⟨⟨_, _, _, seen, yields⟩, depth⟩, ?_⟩
    cases yields.exprCase with
    | var ready =>
      refine ⟨rfl, fun d found => ?_⟩
      -- where the name is found the class name makes no difference, so what stands there is enough
      rw [known, distance?_introduce differ] at found
      obtain ⟨scope, at_d, holds⟩ := distance?_eq_some found
      exact finds_of_ready stands at_d holds (orderly.ready scope (List.mem_of_getElem? at_d) _)

/-- `this` always has a distance and finds its receiver.  Outside of a class the resolver reports
it, and inside of one there is a scope with `this` around every method. -/
theorem this_found {keyword : Token} {hops : Option Nat}
    (located : ExprAt h frames f (.this keyword hops)) :
    ∃ sites s, Traced h frames f (.this keyword hops) sites s ∧
      hops = distance? s.scopes keyword.lexeme ∧
      ∃ d, hops = some d ∧ Finds h frames f sites keyword.lexeme d := by
  obtain ⟨located, yields⟩ := located
  refine ⟨_, _, located.traced yields, ?_⟩
  obtain ⟨formed, ⟨inClass, ajar, same | ⟨_, _, var⟩⟩, -⟩ := h.regular located.seen
  · cases yields.exprCase with
    | this fine =>
      refine ⟨rfl, ?_⟩
      have spelled : keyword.lexeme = "this" := formed.2.this formed.1
      rw [spelled]
      have keyword : ¬ Plain "this" := fun plain => plain.1 rfl
      -- outside of a class it would have been reported
      have inside : inClass.isSome = true := by
        unfold thisError? at fine
        rw [same]
        split at fine
        · cases fine
        · next known => rw [known]; rfl
      obtain ⟨d, found⟩ := distance?_isSome
        (ajar.exists_of_orderly keyword fun inner orderly => orderly.this inside)
      obtain ⟨scope, at_d, holds⟩ := distance?_eq_some found
      have ready := ajar.ready_keyword (List.mem_of_getElem? at_d) keyword
      exact ⟨d, found, finds_of_ready located.stands at_d holds ready⟩
  · rw [var] at yields
    cases yields.exprCase

/-- `super` always has a distance and finds its class, and `this` one frame further in.  Only a
class with a superclass lets it pass without a report, and there the scope of `super` is directly
around that of `this`. -/
theorem super_found {keyword method : Token} {hops : Option Nat}
    (located : ExprAt h frames f (.super keyword method hops)) :
    ∃ sites s, Traced h frames f (.super keyword method hops) sites s ∧
      hops = distance? s.scopes keyword.lexeme ∧ keyword.lexeme = "super" ∧
      ∃ d, hops = some (d + 1) ∧ Finds h frames f sites "super" (d + 1) ∧
        Finds h frames f sites "this" d := by
  obtain ⟨located, yields⟩ := located
  refine ⟨_, _, located.traced yields, ?_⟩
  obtain ⟨formed, ⟨inClass, ajar, same | ⟨_, _, var⟩⟩, -⟩ := h.regular located.seen
  · cases yields.exprCase with
    | super fine =>
      have spelled : keyword.lexeme = "super" := formed.2.1.super formed.1
      refine ⟨rfl, spelled, ?_⟩
      rw [spelled]
      have superKeyword : ¬ Plain "super" := fun plain => plain.2 rfl
      have thisKeyword : ¬ Plain "this" := fun plain => plain.1 rfl
      -- only a class with a superclass lets `super` pass without a report
      have derived : inClass = some .derived := by
        unfold superError? at fine
        rw [same]
        split at fine
        · cases fine
        · cases fine
        · assumption
      obtain ⟨d, found⟩ := distance?_isSome
        (ajar.exists_of_orderly superKeyword fun inner orderly => orderly.super derived)
      obtain ⟨scope, at_d, holds⟩ := distance?_eq_some found
      have ready := ajar.ready_keyword (List.mem_of_getElem? at_d) superKeyword
      have finds := finds_of_ready located.stands at_d holds ready
      -- the scope of `super` always has that of `this` right inside it
      cases d with
      | zero =>
        rw [ajar.paired.not_innermost at_d] at holds
        cases holds
      | succ d =>
        obtain ⟨inner, at_inner, holdsThis⟩ := ajar.paired.this_inside at_d holds
        have readyThis := ajar.ready_keyword (List.mem_of_getElem? at_inner) thisKeyword
        exact ⟨d, found, finds, finds_of_ready located.stands at_inner holdsThis readyThis⟩
  · rw [var] at yields
    cases yields.exprCase

/-- An assignment with a distance finds its name exactly if the name is ready; the only name that is
not is one that is just being declared in the innermost scope. -/
theorem assign_found {name : Token} {value : Expr} {hops : Option Nat}
    (located : ExprAt h frames f (.assign name value hops)) :
    ∃ sites s, Traced h frames f (.assign name value hops) sites s ∧
      hops = distance? s.scopes name.lexeme ∧ ∀ d, hops = some d →
        (s.isUnready name.lexeme = false → Finds h frames f sites name.lexeme d) ∧
        (s.isUnready name.lexeme = true → d = 0 ∧ frames.local? f name.lexeme = none) := by
  obtain @⟨sites, s, s', context, source, _, located, yields⟩ := located
  refine ⟨_, _, located.traced yields, ?_⟩
  obtain ⟨formed, ⟨inClass, ajar, -⟩, -⟩ := h.regular located.seen
  have tight := located.tight
  cases yields.exprCase with
  | assign part =>
    refine ⟨rfl, fun d found => ⟨fun ready => ?_, fun unready => ?_⟩⟩
    · obtain ⟨scope, at_d, holds⟩ := distance?_eq_some found
      exact finds_of_ready located.stands at_d holds (ready_of_distance ajar ready at_d)
    · unfold State.isUnready at unready
      cases scopes : s.scopes with
      | nil =>
        rw [scopes] at found
        cases found
      | cons scope outer =>
        rw [scopes, beq_iff_eq] at unready
        have here : scope.contains name.lexeme = true := by rw [Bindings.contains, unready]; rfl
        rw [scopes, distance?, List.findIdx?_cons, if_pos here, Option.some.injEq] at found
        refine ⟨found.symm, ?_⟩
        change Exact frames f s.scopes at tight
        rw [scopes] at tight
        -- a name that the frame held would be ready
        cases held : frames.local? f name.lexeme with
        | none => rfl
        | some v =>
          have ready := tight name.lexeme (Option.isSome_of_eq_some held)
          rw [unready] at ready
          cases ready

end ExprAt

end Execution
end Arbor
