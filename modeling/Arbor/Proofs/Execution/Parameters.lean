import Arbor.Proofs.Execution.Keywords
import Arbor.Proofs.Scope.Distinct

/-!
# Arguments and parameters

A call counts its arguments before it hands them on.  For a function it counts its parameters, for a
class those of the initializer that is looked up then, and making the instance looks the initializer
up again.  What is bound in the new frame of the function are its parameters and nothing else, each
to the argument at its place: the parameters of a resolved function have different names, so none
takes the value of another one.

## Main definitions

* `Frames.Pairs`: a frame that holds parameters, each with its argument.
* `Delivers`: what becomes of the arguments of a call.

## Main statements

* `Follows.delivers`: calls that go with a history hand on all their arguments.
-/

namespace Arbor

/-- A frame that holds the parameters and nothing else, each bound to the argument at its place; there
are as many of these. -/
structure Frames.Pairs (frames : Frames Value) (f : FrameId) (params : List Token)
    (arguments : List Value) : Prop where
  length : params.length = arguments.length
  held : ∀ name, (frames.local? f name).isSome = true ↔ name ∈ params.map Token.lexeme
  bound : ∀ (i : Nat) param argument, params[i]? = some param → arguments[i]? = some argument →
    frames.local? f param.lexeme = some argument

theorem FunDecl.Distinct.nodup_params : ∀ {decl : FunDecl}, decl.Distinct →
    (decl.params.map Token.lexeme).Nodup
  | ⟨_, _, _⟩, distinct => (List.nodup_append.mp distinct.1).1

namespace Execution

open Eval Stateful Scope

/-- What becomes of the arguments of a call. -/
structure Delivers (turns : Nat) (M : Moment) : Prop where
  /-- What is called takes as many arguments as there are. -/
  checked : ∀ callee arguments paren, M.task = .call callee arguments paren →
    ∀ M', Starts turns M M' →
      M'.task = .invoke callee arguments ∧ callee.arity? = some arguments.length
  arity : ∀ callee arguments, M.task = .invoke callee arguments →
    callee.arity? = some arguments.length
  /-- A class without an initializer takes none. -/
  bare : ∀ c arguments, M.task = .invoke (.cls c) arguments → c.initializer? = none →
    c.arity = 0 ∧ arguments = []
  /-- A class takes as many as the initializer that is bound to the instance, and hands it all. -/
  construct : ∀ c init arguments, M.task = .invoke (.cls c) arguments →
    c.initializer? = some init → c.arity = init.decl.params.length ∧
      (0 < M.room → ∃ M', Starts turns M M') ∧
      ∀ M', Starts turns M M' →
        ∃ bound, bound.decl = init.decl ∧ M'.task = .invoke (.closure bound) arguments
  /-- The body of a function is run in a new frame that holds the parameters with the arguments. -/
  apply : ∀ c arguments, M.task = .invoke (.closure c) arguments →
    (0 < M.room → ∃ M', Starts turns M M') ∧
    ∀ M', Starts turns M M' → M'.task = .runBlock c.decl.body M.machine.frames.size ∧
      M'.machine.frames.Pairs M.machine.frames.size c.decl.params arguments

/-! ### Binding parameters -/

section Binding

variable {f g : FrameId} {m m' : Machine}

/-- Binding parameters is always possible. -/
theorem exists_bindParams (f : FrameId) : ∀ (params : List Token) (arguments : List Value)
    (m : Machine), ∃ m', (bindParams f params arguments).run m = .ok () m'
  | [], _, m => ⟨m, rfl⟩
  | _ :: _, [], m => ⟨m, rfl⟩
  | param :: params, argument :: arguments, m => by
    obtain ⟨m', ran⟩ := exists_bindParams f params arguments
      { m with frames := m.frames.define f param.lexeme argument }
    exact ⟨m', run_bind_ok.mpr ⟨(), _, rfl, ran⟩⟩

/-- What is not the name of a parameter stays as it was, in the frame of the call as in any other.
The induction is on the parameters, each of which binds one name. -/
theorem local?_bindParams_of_notMem {name : String} : ∀ {params : List Token}
    {arguments : List Value} {m : Machine}, name ∉ params.map Token.lexeme →
      (bindParams f params arguments).run m = .ok () m' →
      m'.frames.local? g name = m.frames.local? g name
  | [], _, _, _, ran => by
    cases ran
    rfl
  | _ :: _, [], _, _, ran => by
    cases ran
    rfl
  | param :: params, argument :: arguments, m, absent, ran => by
    obtain ⟨_, m₁, defined, rest⟩ := run_bind_ok.mp ran
    cases defined
    rw [List.map_cons, List.mem_cons, not_or] at absent
    rw [local?_bindParams_of_notMem absent.2 rest]
    exact Frames.local?_define_of_ne m.frames (.inr absent.1) argument

/-- A parameter is bound to the argument at its place, since no later one has its name.  They are
bound from the first to the last, so it is the names behind a parameter that could have taken the
place of its argument. -/
theorem local?_bindParams : ∀ {params : List Token} {arguments : List Value} {m : Machine},
    (params.map Token.lexeme).Nodup → f < m.frames.size →
      (bindParams f params arguments).run m = .ok () m' →
      ∀ (i : Nat) param argument, params[i]? = some param → arguments[i]? = some argument →
        m'.frames.local? f param.lexeme = some argument
  | [], _, _, _, _, _, i, param, argument, at_i, _ => by simp at at_i
  | _ :: _, [], _, _, _, _, i, param, argument, _, at_i => by simp at at_i
  | first :: params, value :: arguments, m, nodup, there, ran, i, param, argument, at_i, at_i' => by
    obtain ⟨_, m₁, defined, rest⟩ := run_bind_ok.mp ran
    cases defined
    obtain ⟨new, others⟩ := List.nodup_cons.mp nodup
    cases i with
    | zero =>
      cases at_i
      cases at_i'
      rw [local?_bindParams_of_notMem new rest]
      exact Frames.local?_define_self m.frames there _ _
    | succ i =>
      have there' : f < (m.frames.define f first.lexeme value).size := by simpa using there
      exact local?_bindParams others there' rest i param argument at_i at_i'

/-- In a new frame the parameters are bound and nothing else.  A frame is made empty, and there are
as many arguments as parameters, so no parameter is left out. -/
theorem pairs_bindParams {params : List Token} {arguments : List Value} {outer : FrameId}
    (length : params.length = arguments.length) (nodup : (params.map Token.lexeme).Nodup)
    (ran : (bindParams m.frames.size params arguments).run
      { m with frames := m.frames.make (some outer) } = .ok () m') :
    m'.frames.Pairs m.frames.size params arguments := by
  have there : m.frames.size < (m.frames.make (some outer)).size := by simp
  refine ⟨length, ?_, local?_bindParams nodup there ran⟩
  intro name
  constructor
  · intro holds
    by_contra absent
    rw [local?_bindParams_of_notMem absent ran, Frames.local?_make, Frames.local?_size] at holds
    cases holds
  · exact holds_bindParams length there ran name

end Binding

/-- The parameters of a resolved function have different names. -/
theorem ClosureFits.nodup_params {h : History} {frames : Frames Value} {c : Closure}
    (fits : ClosureFits h frames c) : (c.decl.params.map Token.lexeme).Nodup := by
  obtain ⟨⟨sites, s, context, kind, decl, s', seen, yields, -⟩, -⟩ := fits
  obtain ⟨formed, -⟩ := h.regular seen
  exact (function_distinct context kind decl formed yields).nodup_params

/-- A call that goes with a history hands on all its arguments.  It is made with as many as the
arity says, which for a class is the arity of the initializer, or zero. -/
theorem Follows.delivers {h : History} {turns : Nat} {M : Moment} (follows : Follows h turns M) :
    Delivers turns M := by
  obtain ⟨room, task, m⟩ := M
  refine ⟨?_, ?_, ?_, ?_, ?_⟩
  · rintro callee arguments paren rfl M' starts
    cases starts with
    | invoked fits => exact ⟨rfl, fits⟩
  · rintro callee arguments rfl
    exact follows.good.2
  · rintro c arguments rfl none
    have counted : c.arity = arguments.length := Option.some.inj follows.good.2
    have zero : c.arity = 0 := by
      unfold Class.arity
      rw [none]
    exact ⟨zero, List.eq_nil_of_length_eq_zero (counted.symm.trans zero)⟩
  · rintro c init arguments rfl found
    refine ⟨?_, ?_, ?_⟩
    · unfold Class.arity
      rw [found]
      rfl
    · intro enough
      obtain ⟨room, rfl⟩ := Nat.exists_eq_succ_of_ne_zero (Nat.ne_of_gt enough)
      exact ⟨_, .initializer rfl found (run_bindThis ..)⟩
    · intro M' starts
      cases starts with
      | @initializer _ _ _ _ i m₁ _ bound m₂ made found' ran =>
        cases found.symm.trans found'
        refine ⟨bound, ?_, rfl⟩
        cases ran
        rfl
  · rintro c arguments rfl
    obtain ⟨⟨fits, -⟩, counted⟩ := follows.good
    have fits : ClosureFits h m.frames c := fits
    refine ⟨?_, ?_⟩
    · intro enough
      obtain ⟨room, rfl⟩ := Nat.exists_eq_succ_of_ne_zero (Nat.ne_of_gt enough)
      obtain ⟨m', bound⟩ := exists_bindParams m.frames.size c.decl.params arguments
        { m with frames := m.frames.make (some c.frame) }
      exact ⟨_, .body rfl bound⟩
    · intro M' starts
      cases starts with
      | body made bound =>
        cases made
        exact ⟨rfl, pairs_bindParams (Option.some.inj counted) fits.nodup_params bound⟩

end Execution
end Arbor
