import Arbor.Proofs.Parallel
import Arbor.Proofs.Scope.Closed
import Arbor.Proofs.Scope.Orderly

/-!
# Resolution taken up again

Top-level names are the only thing that resolution carries from one statement of a program to the
next.  They matter in one place: a name that is not ready must not be read in its own initializer.  A
walk that knows more names from before has therefore less to report, and finds the same distances.

This is what lets a program be resolved in parts.  The names that a walk over the first part leaves
behind are ready, all of them, and it knows every name the first part introduces.

## Main definitions

* `Scope.Covers`: a state in which at least the names are known that are known in another one.

## Main statements

* `Scope.globals_stmts`: the top-level names behind statements.
* `Scope.stmts_of_covers`: statements on which nothing is reported where fewer names are known.
-/

namespace Arbor
namespace Scope

open Stateful

variable {α β : Type}

/-! ### Top-level names -/

/-- From one set of names to the next at most some names were added, and these are ready. -/
def Settled (names : List String) (before after : Bindings Bool) : Prop :=
  ∀ name, after.get? name = if name ∈ names then some true else before.get? name

namespace Settled

variable {names more : List String} {a b c : Bindings Bool}

theorem of_eq (same : b = a) : Settled [] a b := by
  intro name
  rw [same, if_neg List.not_mem_nil]

theorem append (first : Settled names a b) (second : Settled more b c) :
    Settled (names ++ more) a c := by
  intro name
  rw [second name, first name]
  by_cases late : name ∈ more
  · rw [if_pos late, if_pos (List.mem_append_right _ late)]
  · by_cases early : name ∈ names
    · rw [if_neg late, if_pos early, if_pos (List.mem_append_left _ early)]
    · rw [if_neg late, if_neg early, if_neg fun mem => (List.mem_append.mp mem).elim early late]

/-- What was ready in the beginning or came in is ready in the end. -/
theorem ne_false (settled : Settled names a b) (ready : ∀ name, a.get? name ≠ some false)
    (name : String) : b.get? name ≠ some false := by
  rw [settled name]
  split
  · exact nofun
  · exact ready name

theorem contains (settled : Settled names a b) {name : String}
    (known : a.contains name = true ∨ name ∈ names) : b.contains name = true := by
  unfold Bindings.contains
  rw [settled name]
  split
  · rfl
  · next absent => exact known.resolve_right absent

end Settled

/-- A walk that leaves the top-level names as they were. -/
def LeavesGlobals (x : Resolve α) : Prop :=
  ∀ s a s', x.run s = .ok a s' → s'.globals = s.globals

theorem LeavesGlobals.bind {x : Resolve α} {k : α → Resolve β} (first : LeavesGlobals x)
    (second : ∀ a, LeavesGlobals (k a)) : LeavesGlobals (x >>= k) := by
  intro s b s' ran
  obtain ⟨a, s₁, ranFirst, ranSecond⟩ := run_bind_ok.mp ran
  exact (second a s₁ b s' ranSecond).trans (first s a s₁ ranFirst)

theorem LeavesGlobals.reportIf (condition : Bool) (token : Token) (error : ScopeError) :
    LeavesGlobals (reportIf condition token error) := by
  intro s u s' ran
  cases condition <;> (cases ran; rfl)

/-- Expressions introduce nothing, be it at the top level or inside. -/
theorem passive_leavesGlobals : Passive fun _ x => LeavesGlobals x where
  pure _ := fun _ _ _ ran => by
    cases ran
    rfl
  throw _ := fun _ _ _ ran => absurd ran run_throw_ok
  bind := .bind
  report _ _ := fun _ _ _ ran => by
    cases ran
    rfl
  link kind name := by
    intro s hops s' ran
    unfold link at ran
    rw [run_modifyGet_ok] at ran
    split at ran <;> (cases ran; rfl)
  ready name _ _ rest := by
    intro s a s' ran
    obtain ⟨_, _, got, ran⟩ := run_bind_ok.mp ran
    obtain ⟨rfl, rfl⟩ := run_get_ok.mp got
    exact (LeavesGlobals.reportIf _ _ _).bind (fun _ => rest) _ _ _ ran

/-- A walk that keeps the number of scopes, and leaves the top-level names alone inside a scope. -/
def KeepsInside (x : Resolve α) : Prop :=
  ∀ s a s', x.run s = .ok a s' →
    s'.scopes.length = s.scopes.length ∧ (s.scopes ≠ [] → s'.globals = s.globals)

theorem KeepsInside.bind {x : Resolve α} {k : α → Resolve β} (first : KeepsInside x)
    (second : ∀ a, KeepsInside (k a)) : KeepsInside (x >>= k) := by
  intro s b s' ran
  obtain ⟨a, s₁, ranFirst, ranSecond⟩ := run_bind_ok.mp ran
  obtain ⟨size₁, same₁⟩ := first s a s₁ ranFirst
  obtain ⟨size₂, same₂⟩ := second a s₁ b s' ranSecond
  refine ⟨size₂.trans size₁, fun inside => (same₂ fun none => inside ?_).trans (same₁ inside)⟩
  rw [← List.length_eq_zero_iff, ← size₁, none, List.length_nil]

theorem KeepsInside.reportIf (condition : Bool) (token : Token) (error : ScopeError) :
    KeepsInside (reportIf condition token error) := by
  intro s u s' ran
  cases condition <;> (cases ran; exact ⟨rfl, fun _ => rfl⟩)

/-- Statements inside a scope introduce nothing at the top level, and leave as many scopes as there
were. -/
theorem closed_keepsInside : Closed fun _ x => KeepsInside x where
  pure _ := fun _ _ _ ran => by
    cases ran
    exact ⟨rfl, fun _ => rfl⟩
  throw _ := fun _ _ _ ran => absurd ran run_throw_ok
  bind := .bind
  report _ _ := fun _ _ _ ran => by
    cases ran
    exact ⟨rfl, fun _ => rfl⟩
  link kind name := by
    intro s hops s' ran
    unfold link at ran
    rw [run_modifyGet_ok] at ran
    split at ran <;> (cases ran; exact ⟨rfl, fun _ => rfl⟩)
  ready name _ _ rest := by
    intro s a s' ran
    obtain ⟨_, _, got, ran⟩ := run_bind_ok.mp ran
    obtain ⟨rfl, rfl⟩ := run_get_ok.mp got
    exact (KeepsInside.reportIf _ _ _).bind (fun _ => rest) _ _ _ ran
  declare name := by
    intro s u s' ran
    obtain ⟨_, _, got, ran⟩ := run_bind_ok.mp ran
    obtain ⟨rfl, rfl⟩ := run_get_ok.mp got
    cases scopes : s.scopes with
    | nil =>
      simp only [scopes] at ran
      split at ran <;> (cases ran; exact ⟨congrArg List.length scopes, fun inside => absurd rfl inside⟩)
    | cons scope outer =>
      simp only [scopes, run_bind_ok] at ran
      obtain ⟨_, s₁, reported, ran⟩ := ran
      rw [run_modify_ok] at ran
      subst ran
      have inside : s.scopes ≠ [] := by
        rw [scopes]
        exact List.cons_ne_nil _ _
      exact ⟨rfl, fun _ => ((KeepsInside.reportIf _ _ _) _ _ _ reported).2 inside⟩
  define name := by
    intro s u s' ran
    rw [define, run_modify_ok] at ran
    subst ran
    cases scopes : s.scopes with
    | nil => exact ⟨rfl, fun inside => absurd rfl inside⟩
    | cons scope outer => exact ⟨rfl, fun _ => rfl⟩
  within names body inner := by
    intro s a s' ran
    obtain ⟨s₁, inside, rfl⟩ := within_run.mp ran
    obtain ⟨size, same⟩ := inner _ _ _ inside
    refine ⟨?_, fun _ => same (by simp [State.opened])⟩
    rw [List.length_tail, size]
    rfl

/-- What stands in a scope of its own introduces nothing at the top level. -/
theorem within_leavesGlobals {names : List String} {body : Resolve α} (inner : KeepsInside body) :
    LeavesGlobals (within names body) := by
  intro s a s' ran
  obtain ⟨s₁, inside, rfl⟩ := within_run.mp ran
  exact (inner _ _ _ inside).2 (by simp [State.opened])

/-- Behind a declaration at the top level the other names are as they were.  Nothing is reported
there, even if the name was known. -/
theorem declare_globals {name : Token} {u : Unit} {s s' : State} (top : s.scopes = [])
    (ran : (declare name).run s = .ok u s') :
    s'.scopes = [] ∧ ∀ other ≠ name.lexeme, s'.globals.get? other = s.globals.get? other := by
  obtain ⟨_, _, got, ran⟩ := run_bind_ok.mp ran
  obtain ⟨rfl, rfl⟩ := run_get_ok.mp got
  simp only [top] at ran
  split at ran
  · cases ran
    exact ⟨top, fun _ _ => rfl⟩
  · cases ran
    exact ⟨top, fun other ne => Bindings.get?_put_of_ne _ ne _⟩

/-- A name that is made ready at the top level after it was declared.  In between it was known and
not ready, which no other name can tell. -/
theorem settled_define {name : Token} {u : Unit} {known : Bindings Bool} {s s' : State}
    (top : s.scopes = [])
    (others : ∀ other ≠ name.lexeme, s.globals.get? other = known.get? other)
    (ran : (define name).run s = .ok u s') : Settled [name.lexeme] known s'.globals := by
  rw [define, run_modify_ok] at ran
  subst ran
  intro other
  rw [top]
  by_cases same : other = name.lexeme
  · rw [if_pos (List.mem_singleton.mpr same), same, Bindings.get?_put_self]
  · rw [if_neg fun mem => same (List.mem_singleton.mp mem), Bindings.get?_put_of_ne _ same,
      others other same]

/-- A name that is declared and made ready at the top level. -/
theorem settled_declare_define {name : Token} {u v : Unit} {s s₁ s' : State} (top : s.scopes = [])
    (declared : (declare name).run s = .ok u s₁) (defined : (define name).run s₁ = .ok v s') :
    Settled [name.lexeme] s.globals s'.globals :=
  have ⟨still, others⟩ := declare_globals top declared
  settled_define still others defined

theorem function_leavesGlobals (context : Context) (kind : FunctionKind) (decl : FunDecl) :
    LeavesGlobals (function context kind decl) := by
  obtain ⟨name, params, body⟩ := decl
  exact (within_leavesGlobals (closed_keepsInside.bind (closed_keepsInside.declareAll params)
    fun _ => closed_keepsInside.stmts _ body)).bind fun _ => passive_leavesGlobals.pure _

/-- The top-level names behind a statement at the top level: those it introduces are ready, and the
others are as they were. -/
theorem globals_stmt (context : Context) : ∀ (st : Stmt) {st' : Stmt} {s s' : State},
    (stmt context st).run s = .ok st' s' → s.scopes = [] →
      Settled st.introduces s.globals s'.globals
  | .expr e, _, s, s', ran, _ | .print e, _, s, s', ran, _ | .bare e, _, s, s', ran, _ => by
    obtain ⟨_, _, ran, done⟩ := run_bind_ok.mp ran
    cases done
    exact .of_eq (passive_leavesGlobals.expr context e _ _ _ ran)
  | .varDecl name initializer, _, s, s', ran, top => by
    simp only [stmt, run_bind_ok, run_pure_ok] at ran
    obtain ⟨_, s₁, declared, _, s₂, ran, _, _, defined, rfl, rfl⟩ := ran
    obtain ⟨still, others⟩ := declare_globals top declared
    have same := passive_leavesGlobals.expr? context initializer _ _ _ ran
    have stays : s₂.scopes = [] := (expr?_effect ran).scopes.trans still
    exact settled_define stays (fun other ne => by rw [same]; exact others other ne) defined
  | .block statements, _, s, s', ran, _ => by
    obtain ⟨_, _, ran, done⟩ := run_bind_ok.mp ran
    cases done
    exact .of_eq (within_leavesGlobals (closed_keepsInside.stmts context statements) _ _ _ ran)
  | .ifElse condition thenBranch none, _, s, s', ran, top => by
    simp only [stmt, run_bind_ok, run_pure_ok] at ran
    obtain ⟨_, s₁, ranCondition, _, _, ranThen, -, rfl⟩ := ran
    have same := passive_leavesGlobals.expr context condition _ _ _ ranCondition
    have stays : s₁.scopes = [] := (expr_effect context condition ranCondition).scopes.trans top
    exact same ▸ globals_stmt context thenBranch ranThen stays
  | .ifElse condition thenBranch (some elseBranch), _, s, s', ran, top => by
    simp only [stmt, run_bind_ok, run_pure_ok] at ran
    obtain ⟨_, s₁, ranCondition, _, s₂, ranThen, _, _, ranElse, -, rfl⟩ := ran
    have same := passive_leavesGlobals.expr context condition _ _ _ ranCondition
    have stays : s₁.scopes = [] := (expr_effect context condition ranCondition).scopes.trans top
    have again : s₂.scopes = [] := by
      rw [(stmt_effect context thenBranch ranThen).2.scopes, stays]
      rfl
    exact same ▸ (globals_stmt context thenBranch ranThen stays).append
      (globals_stmt context elseBranch ranElse again)
  | .loop condition body, _, s, s', ran, top => by
    simp only [stmt, run_bind_ok, run_pure_ok] at ran
    obtain ⟨_, s₁, ranCondition, _, _, ranBody, -, rfl⟩ := ran
    have same := passive_leavesGlobals.expr context condition _ _ _ ranCondition
    have stays : s₁.scopes = [] := (expr_effect context condition ranCondition).scopes.trans top
    exact same ▸ globals_stmt _ body ranBody stays
  | .funDecl decl, _, s, s', ran, top => by
    simp only [stmt, run_bind_ok, run_pure_ok] at ran
    obtain ⟨_, s₁, declared, _, s₂, defined, _, _, ran, -, rfl⟩ := ran
    have same := function_leavesGlobals context .function decl _ _ _ ran
    exact same ▸ settled_declare_define top declared defined
  | .classDecl name none members, _, s, s', ran, top => by
    simp only [stmt, run_bind_ok, run_pure_ok] at ran
    obtain ⟨_, s₁, declared, _, s₂, defined, _, _, ran, -, rfl⟩ := ran
    have same := within_leavesGlobals (closed_keepsInside.methods _ members) _ _ _ ran
    exact same ▸ settled_declare_define top declared defined
  | .classDecl name (some parent) members, _, s, s', ran, top => by
    simp only [stmt, run_bind_ok, run_pure_ok] at ran
    obtain ⟨_, s₁, declared, _, s₂, defined, _, s₃, ranParent, _, _, ran, -, rfl⟩ := ran
    have parents := passive_leavesGlobals.superclass context name parent _ _ _ ranParent
    have same := within_leavesGlobals
      (closed_keepsInside.within _ (closed_keepsInside.methods _ members)) _ _ _ ran
    exact (same.trans parents) ▸ settled_declare_define top declared defined
  | .ret keyword value, _, s, s', ran, _ => by
    simp only [stmt, run_bind_ok, run_pure_ok] at ran
    obtain ⟨_, _, atTop, _, _, fromInit, _, _, ran, -, rfl⟩ := ran
    have first := LeavesGlobals.reportIf _ _ _ _ _ _ atTop
    have second := LeavesGlobals.reportIf _ _ _ _ _ _ fromInit
    have third := passive_leavesGlobals.expr? context value _ _ _ ran
    exact .of_eq (third.trans (second.trans first))
  | .brk keyword, _, s, s', ran, _ | .cont keyword, _, s, s', ran, _ => by
    obtain ⟨_, _, reported, done⟩ := run_bind_ok.mp ran
    cases done
    exact .of_eq (LeavesGlobals.reportIf _ _ _ _ _ _ reported)
  | .misfit what, _, s, s', ran, _ => absurd ran run_throw_ok
termination_by structural st => st

/-- The top-level names behind statements at the top level: those they introduce are ready.  The
induction is on the statements. -/
theorem globals_stmts (context : Context) {sts sts' : List Stmt} {s s' : State}
    (ran : (stmts context sts).run s = .ok sts' s') (top : s.scopes = []) :
    Settled (introducedBy sts) s.globals s'.globals := by
  induction sts generalizing s sts' with
  | nil =>
    cases ran
    exact .of_eq rfl
  | cons st rest ih =>
    simp only [stmts, run_bind_ok, run_pure_ok] at ran
    obtain ⟨_, s₁, ranFirst, _, _, ranRest, -, rfl⟩ := ran
    have stays : s₁.scopes = [] := by
      rw [(stmt_effect context st ranFirst).2.scopes, top]
      rfl
    exact (globals_stmt context st ranFirst top).append (ih ranRest stays)

/-! ### Walks that know more -/

/-- Of two sets of names the second has all names of the first, and only what is not ready in the
first is not ready in the second. -/
structure Widens (g h : Bindings Bool) : Prop where
  known : ∀ name, g.contains name = true → h.contains name = true
  unready : ∀ name, h.get? name = some false → g.get? name = some false

namespace Widens

variable {g h : Bindings Bool}

/-- What is put into both, under one name and equally ready, keeps them comparable. -/
theorem put (widens : Widens g h) (name : String) (ready : Bool) :
    Widens (g.put name ready) (h.put name ready) := by
  refine ⟨fun other knows => ?_, fun other unready => ?_⟩
  · rw [Bindings.contains_put, Bool.or_eq_true] at knows ⊢
    exact knows.imp_right (widens.known other)
  · rw [Bindings.get?_put] at unready ⊢
    by_cases same : other = name
    · rw [if_pos same] at unready ⊢
      exact unready
    · rw [if_neg same] at unready ⊢
      exact widens.unready other unready

/-- A name that only the second one has may be declared in the first.  There it is not ready yet,
whatever it is in the second one. -/
theorem declared (widens : Widens g h) {name : String} (there : h.contains name = true) :
    Widens (g.put name false) h := by
  refine ⟨fun other knows => ?_, fun other unready => ?_⟩
  · rw [Bindings.contains_put, Bool.or_eq_true, decide_eq_true_iff] at knows
    rcases knows with rfl | knows
    · exact there
    · exact widens.known other knows
  · rw [Bindings.get?_put]
    by_cases same : other = name
    · rw [if_pos same]
    · rw [if_neg same]
      exact widens.unready other unready

end Widens

/-- The second state has the same scopes as the first and knows at least the same names; `earlier`
was resolved on the way to it, and nothing was reported unless something was in the first. -/
structure Covers (earlier : Array Resolution) (s t : State) : Prop where
  scopes : t.scopes = s.scopes
  globals : Widens s.globals t.globals
  silent : s.reports = #[] → t.reports = #[]
  resolutions : t.resolutions = earlier ++ s.resolutions

/-- A walk that goes alike where more names are known. -/
def Resumes (earlier : Array Resolution) (x : Resolve α) : Prop :=
  ∀ s t, Covers earlier s t →
    Parallel x s x t (fun a s' b t' => a = b ∧ Covers earlier s' t')
      fun e s' d t' => e = d ∧ Covers earlier s' t'

namespace Resumes

variable {earlier : Array Resolution}

theorem pure (a : α) : Resumes earlier (Pure.pure a) :=
  fun _ _ covers => Parallel.pure ⟨rfl, covers⟩

theorem bind {x : Resolve α} {k : α → Resolve β} (first : Resumes earlier x)
    (second : ∀ a, Resumes earlier (k a)) : Resumes earlier (x >>= k) := by
  intro s t covers
  refine (first s t covers).bind ?_
  rintro a s' _ t' ⟨rfl, covers'⟩
  exact second a s' t' covers'

theorem report (token : Token) (error : ScopeError) : Resumes earlier (report token error) :=
  fun _ _ covers => Parallel.modify ⟨rfl, { covers with silent := fun none => by simp at none }⟩

/-- Of two reports on conditions the second is made only if the first one is. -/
theorem reportIf {here there : Bool} (less : there = true → here = true) (token : Token)
    (error : ScopeError) {s t : State} (covers : Covers earlier s t) :
    Parallel (reportIf here token error) s (reportIf there token error) t
      (fun a s' b t' => a = b ∧ Covers earlier s' t') fun e s' d t' => e = d ∧ Covers earlier s' t' := by
  cases here with
  | true =>
    cases there with
    | true => exact report token error s t covers
    | false =>
      refine Parallel.intro_ok rfl rfl ⟨rfl, { covers with silent := fun none => ?_ }⟩
      simp at none
  | false =>
    cases there with
    | true => cases less rfl
    | false => exact Parallel.pure ⟨rfl, covers⟩

end Resumes

/-- What is not ready in a state that covers another is not ready in the other.  So where the first
one reports nothing on an own initializer, the other does not either. -/
theorem Covers.isUnready {earlier : Array Resolution} {s t : State} (covers : Covers earlier s t)
    (name : String) (unready : t.isUnready name = true) : s.isUnready name = true := by
  unfold State.isUnready at *
  rw [covers.scopes] at unready
  split
  · next none =>
    rw [none] at unready
    exact beq_iff_eq.mpr (covers.globals.unready name (beq_iff_eq.mp unready))
  · next scope outer some =>
    rw [some] at unready
    exact unready

/-- Declaring a name keeps at least as many names known.  If it was known on one side only, then it
was known on the side that knows more, and is left alone there. -/
theorem Resumes.declare {earlier : Array Resolution} (name : Token) :
    Resumes earlier (declare name) := by
  intro s t covers
  unfold Scope.declare
  refine Parallel.look ?_
  rw [covers.scopes]
  cases scopes : s.scopes with
  | nil =>
    dsimp only
    by_cases here : s.globals.contains name.lexeme = true
    · rw [if_pos here, if_pos (covers.globals.known _ here)]
      exact Parallel.pure ⟨rfl, covers⟩
    · rw [if_neg here]
      by_cases there : t.globals.contains name.lexeme = true
      · rw [if_pos there]
        exact Parallel.intro_ok rfl rfl
          ⟨rfl, { covers with globals := covers.globals.declared there }⟩
      · rw [if_neg there]
        exact Parallel.modify ⟨rfl, { covers with globals := covers.globals.put _ _ }⟩
  | cons scope outer =>
    dsimp only
    refine (Resumes.reportIf (fun twice => twice) name _ covers).bind ?_
    rintro _ s' _ t' ⟨-, covers'⟩
    exact Parallel.modify ⟨rfl, { covers' with scopes := rfl }⟩

theorem Resumes.define {earlier : Array Resolution} (name : Token) :
    Resumes earlier (define name) := by
  intro s t covers
  refine Parallel.modify ⟨rfl, ?_⟩
  have same := covers.scopes
  cases scopes : s.scopes with
  | nil =>
    rw [scopes] at same
    rw [same]
    exact ⟨rfl, covers.globals.put _ _, covers.silent, covers.resolutions⟩
  | cons scope outer =>
    rw [scopes] at same
    rw [same]
    exact ⟨rfl, covers.globals, covers.silent, covers.resolutions⟩

theorem Resumes.link {earlier : Array Resolution} (kind : NodeKind) (name : Token) :
    Resumes earlier (link kind name) := by
  intro s t covers
  refine Parallel.modifyGet ?_
  rw [covers.scopes]
  cases distance? s.scopes name.lexeme with
  | none => exact ⟨rfl, covers⟩
  | some hops =>
    refine ⟨rfl, rfl, covers.globals, covers.silent, ?_⟩
    dsimp only
    rw [Array.append_push, covers.resolutions]

/-- Whatever the resolver does goes alike where more names are known.  What it asks of the globals
is only whether a name is known and not ready, and what is ready before the resumption stays so. -/
theorem closed_resumes (earlier : Array Resolution) : Closed fun _ x => Resumes earlier x where
  pure := .pure
  throw _ := fun _ _ covers => Parallel.throw ⟨rfl, covers⟩
  bind := .bind
  report := .report
  link := .link
  ready name _ _ rest := by
    intro s t covers
    refine (Resumes.reportIf (covers.isUnready name.lexeme) name _ covers).bind ?_
    rintro _ s' _ t' ⟨-, covers'⟩
    exact rest s' t' covers'
  declare := .declare
  define := .define
  within names body inner := by
    refine .bind (fun s t covers => ?_) fun _ => .bind inner fun _ => .bind (fun s t covers => ?_)
      fun _ => .pure _
    · exact Parallel.modify ⟨rfl, { covers with scopes := congrArg (_ :: ·) covers.scopes }⟩
    · exact Parallel.modify ⟨rfl, { covers with scopes := congrArg List.tail covers.scopes }⟩

/-- Statements on which nothing is reported are resolved alike where more names are known. -/
theorem stmts_of_covers {earlier : Array Resolution} {context : Context} {sts sts' : List Stmt}
    {s s' t : State} (covers : Covers earlier s t)
    (ran : (stmts context sts).run s = .ok sts' s') (silent : s'.reports = #[]) :
    ∃ t', (stmts context sts).run t = .ok sts' t' ∧ t'.reports = #[] ∧
      t'.resolutions = earlier ++ s'.resolutions := by
  obtain ⟨_, t', ran', rfl, covers'⟩ :=
    ((closed_resumes earlier).stmts context sts s t covers).of_ok ran
  exact ⟨t', ran', covers'.silent silent, covers'.resolutions⟩

end Scope
end Arbor
