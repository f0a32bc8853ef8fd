import Arbor.Proofs.Program.Renaming
import Arbor.Proofs.Scope.Orderly
import Mathlib.Data.List.Nodup
import Mathlib.Data.List.Pairwise

/-!
# Scopes that declare a name once

A local name that is declared again in its scope is reported.  So in a program that is resolved
without a report every scope declares each of its names once, and a variable shares its scope with no
function or class of its name.  This is what it takes to rename the variable alone.

## Main definitions

* `Stmt.Distinct`: the scopes in a statement declare each name once.

## Main statements

* `Scope.stmts_distinct`: so they do in statements that are resolved without a report.
* `Program.renamed_renameAt`: a program in which the variable of a scope is renamed is the same but
  for that variable.
-/

namespace Arbor

open Scope (introducedBy)

mutual

/-- The scopes in a statement declare each name once. -/
def Stmt.Distinct : Stmt → Prop
  | .block statements => (introducedBy statements).Nodup ∧ Stmt.AllDistinct statements
  | .ifElse _ thenBranch none => thenBranch.Distinct
  | .ifElse _ thenBranch (some elseBranch) => thenBranch.Distinct ∧ elseBranch.Distinct
  | .loop _ body => body.Distinct
  | .funDecl decl => decl.Distinct
  | .classDecl _ _ methods => FunDecl.AllDistinct methods
  | _ => True
termination_by structural s => s

/-- So do those in statements. -/
def Stmt.AllDistinct : List Stmt → Prop
  | [] => True
  | s :: rest => s.Distinct ∧ Stmt.AllDistinct rest
termination_by structural ss => ss

/-- So do those in a function, whose own scope holds the parameters too. -/
def FunDecl.Distinct : FunDecl → Prop
  | ⟨_, params, body⟩ =>
    (params.map Token.lexeme ++ introducedBy body).Nodup ∧ Stmt.AllDistinct body
termination_by structural decl => decl

/-- So do those in functions. -/
def FunDecl.AllDistinct : List FunDecl → Prop
  | [] => True
  | decl :: rest => decl.Distinct ∧ FunDecl.AllDistinct rest
termination_by structural decls => decls

end

namespace Scope

open Stateful

variable {token : Token → Prop} {context : Context} {s s' : State} {scope : Bindings Bool}
variable {outer : List (Bindings Bool)}

/-! ### Names that are declared without a report -/

/-- Some names that are new to a scope, none of them twice. -/
structure Fresh (scope : Bindings Bool) (names : List String) : Prop where
  nodup : names.Nodup
  new : ∀ name ∈ names, scope.contains name = false

theorem Fresh.nil : Fresh scope [] :=
  ⟨List.nodup_nil, fun _ mem => absurd mem List.not_mem_nil⟩

theorem Fresh.single {name : String} (new : scope.contains name = false) : Fresh scope [name] := by
  refine ⟨List.nodup_singleton name, fun other mem => ?_⟩
  rw [List.mem_singleton.mp mem]
  exact new

/-- Names that are new after others were introduced are other names.  So they can be put behind
those: none is twice in the list, and none was there in the beginning. -/
theorem Fresh.append {names more : List String} (first : Fresh scope names)
    (second : Fresh (names.foldl introduced scope) more) : Fresh scope (names ++ more) := by
  have apart : ∀ name ∈ more, name ∉ names ∧ scope.contains name = false := by
    intro name mem
    have new := second.new name mem
    by_cases old : name ∈ names
    · rw [Bindings.contains, get?_foldl_introduced, if_pos old] at new
      cases new
    · rw [contains_foldl_introduced old] at new
      exact ⟨old, new⟩
  refine ⟨List.Nodup.append first.nodup second.nodup fun name here there => ?_, fun name mem => ?_⟩
  · exact (apart name there).1 here
  · rcases List.mem_append.mp mem with here | there
    · exact first.new name here
    · exact (apart name there).2

theorem declare_define_fresh {name : Token}
    (yields : Yields (do declare name; define name) s () s') (scopes : s.scopes = scope :: outer) :
    Fresh scope [name.lexeme] := by
  obtain ⟨_, s₁, declared, defined⟩ := run_bind_ok.mp yields.run
  exact .single (declare_silent declared ((define_effect defined).silent yields.silent) scopes)

/-- Parameters that are declared without a report differ from each other and from what the scope
held.  Each was declared behind those in front of it, in a scope that held them. -/
theorem declareAll_fresh {params : List Token} (yields : Yields (declareAll params) s () s')
    (scopes : s.scopes = scope :: outer) : Fresh scope (params.map Token.lexeme) := by
  induction params generalizing s scope with
  | nil => exact .nil
  | cons name rest ih =>
    obtain ⟨ran, silent⟩ := yields
    simp only [declareAll, run_bind_ok] at ran
    obtain ⟨_, s₁, declared, _, s₂, defined, ranRest⟩ := ran
    have both : (do declare name; define name : Resolve Unit).run s = .ok () s₂ :=
      run_bind_ok.mpr ⟨_, s₁, declared, defined⟩
    have effect := declare_define_effect both
    have quiet := (declareAll_effect ranRest).silent silent
    have inner : s₂.scopes = [name.lexeme].foldl introduced scope :: outer := by
      rw [effect.scopes, scopes]
      rfl
    exact Fresh.append (declare_define_fresh ⟨both, quiet⟩ scopes) (ih ⟨ranRest, silent⟩ inner)

/-- The name of a declaration is new to its scope.  Otherwise it would have been reported, and
resolution would not have been silent; other statements introduce nothing. -/
theorem stmt_fresh {st st' : Stmt} (formed : st.Formed token)
    (yields : Yields (stmt context st) s st' s') (scopes : s.scopes = scope :: outer) :
    Fresh scope st.introduces := by
  cases declares : st.isDeclaration with
  | false =>
    rw [Stmt.introduces_eq_nil formed declares]
    exact .nil
  | true =>
    cases yields.stmtCase with
    | varDecl declared => exact .single (declare_silent declared.run declared.silent scopes)
    | funDecl named => exact declare_define_fresh named scopes
    | plainClass named => exact declare_define_fresh named scopes
    | derivedClass named => exact declare_define_fresh named scopes
    | _ => cases declares

/-- So are the names that statements introduce one after the other, each in the scope that those
before it have left behind. -/
theorem stmts_fresh {sts sts' : List Stmt} (formed : Stmt.AllFormed token sts)
    (yields : Yields (stmts context sts) s sts' s') (scopes : s.scopes = scope :: outer) :
    Fresh scope (introducedBy sts) := by
  induction sts generalizing s scope sts' with
  | nil => exact .nil
  | cons st rest ih =>
    obtain ⟨ran, silent⟩ := yields
    simp only [stmts, run_bind_ok, run_pure_ok] at ran
    obtain ⟨_, s₁, ranFirst, _, _, ranRest, rfl, rfl⟩ := ran
    have quiet := (stmts_effect _ _ ranRest).2.silent silent
    have inner : s₁.scopes = st.introduces.foldl introduced scope :: outer := by
      rw [(stmt_effect _ _ ranFirst).2.scopes, scopes]
      rfl
    exact Fresh.append (stmt_fresh formed.1 ⟨ranFirst, quiet⟩ scopes)
      (ih formed.2 ⟨ranRest, silent⟩ inner)

/-! ### Trees that are resolved without a report -/

theorem scopes_opened (s : State) : (s.opened []).scopes = Bindings.empty :: s.scopes :=
  rfl

mutual

/-- Within a statement that is resolved without a report no scope gets a name twice, except for the
globals, where that is allowed. -/
theorem stmt_distinct (context : Context) : ∀ (st : Stmt) {st' : Stmt} {s s' : State},
    st.Formed token → Yields (stmt context st) s st' s' → st'.Distinct
  | .block statements, _, s, _, formed, yields => by
    cases yields.stmtCase with
    | block part =>
      have fresh := stmts_fresh formed part (scopes_opened s)
      refine ⟨?_, stmts_distinct context statements formed part⟩
      rw [(stmts_effect _ _ part.run).1]
      exact fresh.nodup
  | .ifElse _ thenBranch none, _, _, _, formed, yields => by
    cases yields.stmtCase with
    | ifThen _ second =>
      have branch := stmt_distinct context thenBranch formed.2.2 second
      exact branch
  | .ifElse _ thenBranch (some elseBranch), _, _, _, formed, yields => by
    cases yields.stmtCase with
    | ifElse _ second third =>
      exact ⟨stmt_distinct context thenBranch formed.2.2.1 second,
        stmt_distinct context elseBranch formed.2.2.2.2 third⟩
  | .loop _ body, _, _, _, formed, yields => by
    cases yields.stmtCase with
    | loop _ second =>
      have turn := stmt_distinct _ body formed.2.2 second
      exact turn
  | .funDecl decl, _, _, _, formed, yields => by
    cases yields.stmtCase with
    | funDecl _ part => exact function_distinct context .function decl formed part
  | .classDecl _ none members, _, _, _, formed, yields => by
    cases yields.stmtCase with
    | plainClass _ part => exact methods_distinct _ members formed.2.2 part
  | .classDecl _ (some _) members, _, _, _, formed, yields => by
    cases yields.stmtCase with
    | derivedClass _ _ _ second => exact methods_distinct _ members formed.2.2.2 second
  | .expr _, _, _, _, _, yields | .print _, _, _, _, _, yields | .varDecl _ _, _, _, _, _, yields
  | .ret _ _, _, _, _, _, yields | .brk _, _, _, _, _, yields | .cont _, _, _, _, _, yields => by
    cases yields.stmtCase
    exact trivial
  | .bare _, _, _, _, formed, _ | .misfit _, _, _, _, formed, _ => formed.elim
termination_by structural st => st

/-- Statements that were resolved without a report declare each name of a scope once, as every one
of them does inside. -/
theorem stmts_distinct (context : Context) : ∀ (sts : List Stmt) {sts' : List Stmt} {s s' : State},
    Stmt.AllFormed token sts → Yields (stmts context sts) s sts' s' → Stmt.AllDistinct sts'
  | [], _, _, _, _, yields => by
    cases yields.run
    trivial
  | st :: rest, _, _, _, formed, ⟨ran, silent⟩ => by
    simp only [stmts, run_bind_ok, run_pure_ok] at ran
    obtain ⟨_, s₁, ranFirst, _, _, ranRest, rfl, rfl⟩ := ran
    have quiet := (stmts_effect _ _ ranRest).2.silent silent
    exact ⟨stmt_distinct context st formed.1 ⟨ranFirst, quiet⟩,
      stmts_distinct context rest formed.2 ⟨ranRest, silent⟩⟩
termination_by structural sts => sts

/-- The parameters and the variables of a body share a scope.  They were introduced one after the
other without a report, so all of them are distinct. -/
theorem function_distinct (context : Context) (kind : FunctionKind) :
    ∀ (decl : FunDecl) {decl' : FunDecl} {s s' : State}, decl.Formed token →
      Yields (function context kind decl) s decl' s' → decl'.Distinct
  | ⟨_, params, body⟩, _, s, _, formed, yields => by
    obtain ⟨s₁, body', s₂, rfl, declared, part⟩ := function_yields yields
    have first := declareAll_fresh declared (scopes_opened s)
    have inner : s₁.scopes = (params.map Token.lexeme).foldl introduced .empty :: s.scopes :=
      (declareAll_effect declared.run).scopes
    refine ⟨?_, stmts_distinct _ body formed.2.2.2 part⟩
    rw [(stmts_effect _ _ part.run).1]
    exact (first.append (stmts_fresh formed.2.2.2 part inner)).nodup
termination_by structural decl => decl

/-- So it is in every method of a class. -/
theorem methods_distinct (context : Context) :
    ∀ (decls : List FunDecl) {decls' : List FunDecl} {s s' : State},
      FunDecl.AllFormed token decls → Yields (methods context decls) s decls' s' →
        FunDecl.AllDistinct decls'
  | [], _, _, _, _, yields => by
    cases yields.run
    trivial
  | decl :: rest, _, _, _, formed, ⟨ran, silent⟩ => by
    simp only [methods, run_bind_ok, run_pure_ok] at ran
    obtain ⟨_, s₁, ranFirst, _, _, ranRest, rfl, rfl⟩ := ran
    have quiet := (methods_effect _ _ ranRest).silent silent
    exact ⟨function_distinct context _ decl formed.1 ⟨ranFirst, quiet⟩,
      methods_distinct context rest formed.2 ⟨ranRest, silent⟩⟩
termination_by structural decls => decls

end

end Scope

/-! ### Renaming a variable alone -/

/-- The name of a function or a class that a statement declares. -/
def Stmt.ownName? : Stmt → Option Token
  | .funDecl decl => some decl.name
  | .classDecl name _ _ => some name
  | _ => none

theorem Stmt.introduces_ownName {st : Stmt} {name : Token} (own : st.ownName? = some name) :
    name.lexeme ∈ st.introduces := by
  cases st with
  | funDecl decl | classDecl =>
    cases own
    exact List.mem_singleton_self _
  | _ => cases own

/-- No function or class in the scope of a variable has its name.  It would introduce the name a
second time, and the scope has its names but once. -/
theorem HasVariable.ne_ownName {name : String} {params : List Token} {body : List Stmt}
    (has : HasVariable name params body)
    (nodup : (params.map Token.lexeme ++ introducedBy body).Nodup) {st : Stmt} (mem : st ∈ body)
    {other : Token} (own : st.ownName? = some other) : other.lexeme ≠ name := by
  rintro rfl
  have introduced := Stmt.introduces_ownName own
  obtain ⟨-, nodupBody, apart⟩ := List.nodup_append.mp nodup
  rcases has with ⟨param, inParams, same⟩ | ⟨declared, initializer, inBody, same⟩
  · have there : other.lexeme ∈ introducedBy body := List.mem_flatMap.mpr ⟨st, mem, introduced⟩
    exact apart _ (List.mem_map.mpr ⟨param, inParams, same⟩) _ there rfl
  · -- two statements that introduce one name would introduce it twice
    have pairwise := (List.nodup_flatMap.mp nodupBody).2
    have differ : Stmt.varDecl declared initializer ≠ st := by
      rintro rfl
      cases own
    have symmetric : Std.Symm (Function.onFun List.Disjoint Stmt.introduces) :=
      ⟨fun _ _ apart _ here there => apart there here⟩
    have disjoint := pairwise.forall inBody mem differ
    refine disjoint ?_ introduced
    rw [← same]
    exact List.mem_singleton_self _

section Rename

variable {token : Token → Prop} {ρ : Renaming}

/-- What a route leads to, if it leads anywhere, has the variable that is renamed. -/
def Route.Leads (declares : List Nat → Prop) (route : Route) : Prop :=
  ∀ way, route = some way → declares way

theorem Route.isHere_eq_true {route : Route} (here : route.isHere = true) : route = some [] := by
  cases route with
  | none => cases here
  | some way =>
    cases way with
    | nil => rfl
    | cons => cases here

theorem Route.first_eq_some {route : Route} {way : List Nat} (leads : route.first = some way) :
    route = some (0 :: way) := by
  unfold first at leads
  split at leads
  · cases leads
    rfl
  · cases leads

theorem Route.later_eq_some {route : Route} {n : Nat} {way : List Nat}
    (leads : route.later = some (n :: way)) : route = some ((n + 1) :: way) := by
  unfold later at leads
  split at leads
  · cases leads
    rfl
  · cases leads

/-- The functions and classes directly in a scope keep their names. -/
def Stmt.KeepOwn (ρ : Renaming) (marked : Bool) (st : Stmt) : Prop :=
  ∀ name, st.ownName? = some name → ρ.Keeps marked name

theorem Stmt.keepOwn_of_plain {marked : Bool} {st : Stmt} (plain : st.isDeclaration = false) :
    st.KeepOwn ρ marked := by
  intro name own
  cases st with
  | funDecl | classDecl => cases plain
  | _ => cases own

/-- They do if a variable of the scope has the old name. -/
theorem HasVariable.keepOwn {params : List Token} {body : List Stmt} {marked : Bool}
    (has : marked = true → HasVariable ρ.old params body)
    (nodup : (params.map Token.lexeme ++ introducedBy body).Nodup) :
    ∀ st ∈ body, st.KeepOwn ρ marked :=
  fun _ mem _ own here => (has here).ne_ownName nodup mem own

mutual

/-- A statement in which the variable of a scope is renamed is the same but for that variable.  The
induction is on the statement, along the route to the scope; off the route nothing is marked. -/
theorem Stmt.renamed_renameAt : ∀ (st : Stmt) {route : Route} {marks : List Bool},
    st.Formed token → st.Distinct → route.Leads (fun way => st.DeclaresAt ρ.old way) →
    st.KeepOwn ρ (marks.headD false) → st.Renamed ρ marks (st.renameAt ρ route marks)
  | .expr _, _, _, _, _, _, _ => rfl
  | .print _, _, _, _, _, _, _ => rfl
  | .varDecl _ _, _, _, _, _, _, _ => rfl
  | .block statements, route, marks, formed, distinct, leads, _ => by
    have has : route.isHere = true → HasVariable ρ.old [] statements :=
      fun here => leads [] (Route.isHere_eq_true here)
    refine ⟨route.isHere, _, rfl, Stmt.renamed_allRenameAt statements formed distinct.2 ?_ ?_⟩
    · intro n way same
      exact leads (n :: way) same
    · exact HasVariable.keepOwn has distinct.1
  | .ifElse _ thenBranch none, route, marks, formed, distinct, leads, _ => by
    refine ⟨_, rfl, Stmt.renamed_renameAt thenBranch formed.2.2 distinct ?_
      (Stmt.keepOwn_of_plain formed.2.1)⟩
    intro way same
    exact leads (0 :: way) (Route.first_eq_some same)
  | .ifElse _ thenBranch (some elseBranch), route, marks, formed, distinct, leads, _ => by
    refine ⟨_, _, rfl, Stmt.renamed_renameAt thenBranch formed.2.2.1 distinct.1 ?_
      (Stmt.keepOwn_of_plain formed.2.1), Stmt.renamed_renameAt elseBranch formed.2.2.2.2 distinct.2 ?_
      (Stmt.keepOwn_of_plain formed.2.2.2.1)⟩
    · intro way same
      exact leads (0 :: way) (Route.first_eq_some same)
    · intro way same
      exact leads (1 :: way) (Route.later_eq_some (Route.first_eq_some same))
  | .loop _ body, route, marks, formed, distinct, leads, _ => by
    refine ⟨_, rfl, Stmt.renamed_renameAt body formed.2.2 distinct ?_
      (Stmt.keepOwn_of_plain formed.2.1)⟩
    intro way same
    exact leads (0 :: way) (Route.first_eq_some same)
  | .funDecl decl, route, marks, formed, distinct, leads, keeps => by
    refine ⟨_, rfl, keeps _ rfl, FunDecl.renamed_renameAt decl formed distinct ?_⟩
    intro way same
    have declares := leads way same
    cases way <;> exact declares
  | .classDecl name none methods, route, marks, formed, distinct, leads, keeps => by
    refine ⟨_, rfl, keeps _ rfl, FunDecl.renamed_allRenameAt methods formed.2.2 distinct ?_⟩
    intro n way same
    exact leads (n :: way) same
  | .classDecl name (some _) methods, route, marks, formed, distinct, leads, keeps => by
    refine ⟨_, rfl, keeps _ rfl, FunDecl.renamed_allRenameAt methods formed.2.2.2 distinct ?_⟩
    intro n way same
    exact leads (n :: way) same
  | .ret _ _, _, _, _, _, _, _ => rfl
  | .brk _, _, _, _, _, _, _ => rfl
  | .cont _, _, _, _, _, _, _ => rfl
  | .bare _, _, _, formed, _, _, _ => formed.elim
  | .misfit _, _, _, formed, _, _, _ => formed.elim
termination_by structural st => st

/-- A renaming of statements goes by the way to the scope it is about: it enters the statement that
the way leads to and passes through the others with the marks alone. -/
theorem Stmt.renamed_allRenameAt : ∀ (sts : List Stmt) {route : Route} {marks : List Bool},
    Stmt.AllFormed token sts → Stmt.AllDistinct sts →
    (∀ n way, route = some (n :: way) → Stmt.OneDeclaresAt ρ.old n way sts) →
    (∀ st ∈ sts, st.KeepOwn ρ (marks.headD false)) →
    Stmt.AllRenamed ρ marks sts (Stmt.allRenameAt ρ route marks sts)
  | [], _, _, _, _, _, _ => rfl
  | st :: rest, route, marks, formed, distinct, leads, keeps => by
    refine ⟨_, _, rfl, Stmt.renamed_renameAt st formed.1 distinct.1 ?_
      (keeps st (List.mem_cons_self ..)), Stmt.renamed_allRenameAt rest formed.2 distinct.2 ?_
      fun other mem => keeps other (List.mem_cons_of_mem _ mem)⟩
    · intro way same
      exact leads 0 way (Route.first_eq_some same)
    · intro n way same
      exact leads (n + 1) way (Route.later_eq_some same)
termination_by structural sts => sts

/-- A renaming of a function is about its own variables if the way ends here, and otherwise follows
the way into the body. -/
theorem FunDecl.renamed_renameAt : ∀ (decl : FunDecl) {route : Route} {marks : List Bool},
    decl.Formed token → decl.Distinct → route.Leads (fun way => decl.DeclaresAt ρ.old way) →
    decl.Renamed ρ marks (decl.renameAt ρ route marks)
  | ⟨name, params, body⟩, route, marks, formed, distinct, leads => by
    have has : route.isHere = true → HasVariable ρ.old params body :=
      fun here => leads [] (Route.isHere_eq_true here)
    refine ⟨route.isHere, _, rfl, Stmt.renamed_allRenameAt body formed.2.2.2 distinct.2 ?_ ?_⟩
    · intro n way same
      exact leads (n :: way) same
    · exact HasVariable.keepOwn has distinct.1
termination_by structural decl => decl

/-- A renaming of methods enters the one that the way leads to. -/
theorem FunDecl.renamed_allRenameAt : ∀ (decls : List FunDecl) {route : Route} {marks : List Bool},
    FunDecl.AllFormed token decls → FunDecl.AllDistinct decls →
    (∀ n way, route = some (n :: way) → FunDecl.OneDeclaresAt ρ.old n way decls) →
    FunDecl.AllRenamed ρ marks decls (FunDecl.allRenameAt ρ route marks decls)
  | [], _, _, _, _, _ => rfl
  | decl :: rest, route, marks, formed, distinct, leads => by
    refine ⟨_, _, rfl, FunDecl.renamed_renameAt decl formed.1 distinct.1 ?_,
      FunDecl.renamed_allRenameAt rest formed.2 distinct.2 ?_⟩
    · intro way same
      exact leads 0 way (Route.first_eq_some same)
    · intro n way same
      exact leads (n + 1) way (Route.later_eq_some same)
termination_by structural decls => decls

end

/-- A program in which the variable of a scope is renamed is the same but for that variable. -/
theorem Program.renamed_renameAt {p : Program} {way : List Nat}
    (formed : Stmt.AllFormed token p.body) (distinct : Stmt.AllDistinct p.body)
    (declares : p.DeclaresAt ρ.old way) :
    Stmt.AllRenamed ρ [] p.body (p.renameAt ρ way).body := by
  refine Stmt.renamed_allRenameAt p.body formed distinct ?_ fun _ _ _ _ marked => nomatch marked
  rintro n way ⟨⟩
  exact declares

end Rename

end Arbor
