import Arbor.Proofs.Execution.Confined
import Arbor.Proofs.Session.Formed
import Arbor.Proofs.Session.Split

/-!
# Names stay in their frames in every session

What a statement does to the names of frames was said of well-formed statements, in frames that are
there.  In a session that ran texts only, every statement that is ever executed is of that kind:
those of the text at hand, and those in the bodies of functions that earlier texts have left on the
machine.

## Main definitions

* `Arises`, `Session.Happens`: the calls of the evaluator in the run of statements, and of a text.
-/

namespace Arbor

namespace Execution

/-- The calls of the evaluator when statements run on a machine: those made for the statements, each
after the ones before it completed, and the calls these make. -/
inductive Arises (turns room : Nat) (body : List Stmt) (m : Machine) (M : Moment) : Prop
  | intro {before later : List Stmt} {st : Stmt} {m' : Machine}
      (split : body = before ++ st :: later)
      (ran : (runAll turns room before).run m = .ok () m')
      (reaches : Reaches turns ⟨room, .execute st Machine.globals, m'⟩ M)

/-- Whatever is called while well-formed statements run is well-formed itself, and so is the machine
it is called on. -/
theorem Arises.formed {turns room : Nat} {body : List Stmt} {m : Machine} {M : Moment}
    (arises : Arises turns room body m M) (formed : Stmt.AllFormed Token.Spelled body)
    (machine : m.Formed) : M.Formed := by
  obtain @⟨before, later, st, m', rfl, ran, reaches⟩ := arises
  have each := Stmt.allFormed_iff.mp formed
  have earlier : Stmt.AllFormed Token.Spelled before :=
    Stmt.allFormed_iff.mpr fun s mem => each s (List.mem_append_left _ mem)
  obtain ⟨machine', -, -⟩ :=
    (formed_runAll turns room machine.there earlier).of_ok machine (Nat.le_refl _) ran
  have first : Moment.Formed ⟨room, .execute st Machine.globals, m'⟩ :=
    ⟨machine', machine'.there, each st (List.mem_append_cons_self ..)⟩
  exact first.reaches reaches

end Execution

namespace Session

open Execution

/-- The calls of the evaluator in a session that is given a text: as a step of the session, or to
run its statements alone, as they are read or as they are resolved. -/
inductive Happens (s : Session) (limits : Limits) (text : String) (M : Moment) : Prop
  | step (occurs : s.Occurs limits text M)
  | interpreted {body : List Stmt} (of : BodyOf text body)
      (arises : Arises limits.turns limits.room body s.machine M)

/-- So is whatever is called in a session of texts, be it in a step or when a tree is interpreted
that a text was resolved to. -/
theorem Happens.formed {s : Session} {limits : Limits} {text : String} {M : Moment}
    (happens : s.Happens limits text M) (textual : s.Textual) : M.Formed := by
  cases happens with
  | step occurs =>
    obtain ⟨outcome, split, ran, reaches⟩ := occurs
    have body := (BodyOf.resolved outcome).formed
    have poised : (s.poised text).machine.Formed :=
      textual.formed.congr (frames_poised s text).1 (frames_poised s text).2
    exact (Arises.intro split ran reaches).formed body poised
  | interpreted of arises => exact arises.formed of.formed textual.formed

/-- When a program has run to its end, the globals hold the names they held and those of its
declarations.  Resolution keeps which names the statements introduce, so these may be read off the
text. -/
theorem mem_globalNames_run {t t₁ : Session} {limits : Limits} {p : Program}
    (machine : t.machine.Formed) (formed : Stmt.AllFormed Token.Spelled p.body)
    (ran : t.run limits p = (t₁, .ok)) (name : String) :
    name ∈ t₁.machine.globalNames ↔
      name ∈ t.machine.globalNames ∨ ∃ st ∈ p.body, st.declares? = some name := by
  obtain ⟨-, -, p', m, outcome, completed, rfl⟩ := run_ok ran
  have resolved := Program.formed_of_resolve outcome formed
  have frames : (t.begun p).machine.frames = t.machine.frames := (untouched_begun t p).frames
  have there : Machine.globals < (t.begun p).machine.frames.size := by
    rw [frames]
    exact machine.there
  -- resolution keeps the names that statements introduce
  obtain ⟨_, walked, -, -⟩ := Program.run_of_resolve outcome
  rw [← Scope.mem_introducedBy_iff formed, ← (Scope.stmts_effect _ _ walked).1,
    Scope.mem_introducedBy_iff resolved]
  have names := @mem_globalNames_runAll_iff _ _ _ name _ _ _ resolved there completed
  have before : (t.begun p).machine.globalNames = t.machine.globalNames := by
    unfold Machine.globalNames Machine.globalBindings
    rw [frames]
  rw [before] at names
  exact names

/-- A text that was run to the end has added the names it declares at the top level to the globals,
and no others. -/
theorem mem_globalNames_runText {s : Session} {limits : Limits} {text : String}
    (textual : s.Textual) (passed : (s.runText limits text).2 = .ok) (name : String) :
    name ∈ (s.runText limits text).1.machine.globalNames ↔
      name ∈ s.machine.globalNames ∨
        ∃ st ∈ (Program.ofText text).program.body, st.declares? = some name := by
  rw [runText_eq] at passed ⊢
  have ready : (s.afterReading text).machine.Formed := textual.formed.congr rfl rfl
  split at passed
  · cases passed
  · next clean =>
    rw [if_neg clean]
    exact mem_globalNames_run ready (formed_ofText text) (Prod.ext rfl passed) name

/-- Names never leak between frames, in any session that ran texts only.  Expressions and calls
leave the names of all frames as they were, however they end.  A statement adds its own name to the
frame it is executed in if it is a declaration that completes, and nothing else anywhere.  So a text
that has run to its end has added its declarations to the globals, and nothing else. -/
theorem names_confined {s : Session} (textual : s.Textual) (limits : Limits) (text : String) :
    (∀ (room : Nat) (e : Expr) (f : FrameId) (m : Machine),
      m.frames.SameNames (left (evaluate limits.turns room e f) m).frames) ∧
    (∀ (room : Nat) (callee : Value) (arguments : List Value) (paren : Token) (m : Machine),
      m.frames.SameNames (left (call limits.turns room callee arguments paren) m).frames) ∧
    (∀ (room : Nat) (st : Stmt) (f : FrameId) (m : Machine),
      s.Happens limits text ⟨room, .execute st f, m⟩ →
      match st.declares?, (execute limits.turns room st f).run m with
      | some name, .ok _ m' => m.frames.Gains f name m'.frames
      | _, .ok _ m' | _, .error _ m' => m.frames.SameNames m'.frames) ∧
    ((s.runText limits text).2 = .ok → ∀ name,
      name ∈ (s.runText limits text).1.machine.globalNames ↔
        name ∈ s.machine.globalNames ∨
          ∃ st ∈ (Program.ofText text).program.body, st.declares? = some name) := by
  refine ⟨sameNames_evaluate limits.turns, sameNames_call limits.turns, ?_, ?_⟩
  · intro room st f m happens
    obtain ⟨there, formed⟩ := (happens.formed textual).task
    exact confined_execute formed there
  · exact fun passed => mem_globalNames_runText textual passed

/-- A declaration whose initializer calls a function that fails inside a block. -/
def failingInitializer : String :=
  "fun f() { var b; { var c; return -nil; } } var d = f();"

theorem run_failingInitializer :
    (match ((start (.ticking 0) 0).resolved failingInitializer).outcome with
      | .ok ⟨[function, .varDecl name (some e)]⟩ =>
        match (runAll ({} : Limits).turns 9980 [function]).run
          ((start (.ticking 0) 0).poised failingInitializer).machine with
        | .ok () m =>
          match (execute ({} : Limits).turns 9980 (.varDecl name (some e)) Machine.globals).run
            m with
          | .error (.error ⟨.operandNotNumber, _⟩) _ => name.lexeme == "d"
          | _ => false
        | _ => false
      | _ => false) = true := by
  decide +kernel

/-- The declaration adds nothing, and a text that passes adds what it declares at the top level: a
variable in a block is not among the globals. -/
theorem failingInitializer_confined :
    (∃ (st : Stmt) (m m' : Machine) (abort : Abort),
      (start (.ticking 0) 0).Happens {} failingInitializer ⟨9980, .execute st Machine.globals, m⟩ ∧
      st.declares? = some "d" ∧
      (execute ({} : Limits).turns 9980 st Machine.globals).run m = .error abort m' ∧
      m.frames.SameNames m'.frames) ∧
    ((start (.ticking 0) 0).runText {} "var x; { var y; } fun g() {}").2 = .ok ∧
    ∀ name, name ∈ ((start (.ticking 0) 0).runText {} "var x; { var y; } fun g() {}").1.machine.globalNames ↔
      name ∈ (start (.ticking 0) 0).machine.globalNames ∨
        ∃ st ∈ (Program.ofText "var x; { var y; } fun g() {}").program.body,
          st.declares? = some name := by
  have textual : (start (.ticking 0) 0).Textual := .start _ 0
  refine ⟨?_, ?_⟩
  · have shape := run_failingInitializer
    split at shape
    · next function name e outcome =>
      split at shape
      · next m ran =>
        split at shape
        · next line m' failed =>
          have split : [function, .varDecl name (some e)] =
              [function] ++ .varDecl name (some e) :: [] := rfl
          have happens : (start (.ticking 0) 0).Happens {} failingInitializer
              ⟨9980, .execute (.varDecl name (some e)) Machine.globals, m⟩ :=
            .step (.intro outcome split ran .refl)
          have named : (Stmt.varDecl name (some e)).declares? = some "d" :=
            congrArg some (beq_iff_eq.mp shape)
          obtain ⟨-, -, confined, -⟩ := names_confined textual {} failingInitializer
          have same := confined _ _ _ _ happens
          rw [named, failed] at same
          exact ⟨_, m, m', _, happens, named, failed, same⟩
        · cases shape
      · cases shape
    · cases shape
  · have passed : ((start (.ticking 0) 0).runText {} "var x; { var y; } fun g() {}").2 = .ok := by
      decide +kernel
    obtain ⟨-, -, -, globals⟩ := names_confined textual {} "var x; { var y; } fun g() {}"
    exact ⟨passed, globals passed⟩

end Session
end Arbor
