import Arbor.Proofs.Program.Places
import Arbor.Proofs.Scope.Resumed
import Mathlib.Data.List.Forall2

/-!
# Resolution by places

Resolution walks with a stack of scopes, a table of top-level names and a context in hand; a place
has none of these.  Yet at each node the walk comes to, what it has in hand is what is around the
node: the scopes hold the names declared so far, all of them ready except for the one that is just
being initialized, and the context is that of the place.

So a walk reports, in order, what the rules of scoping ask for, and the distances it finds are those
that places give.

## Main definitions

* `Scope.Stands`: a state in which the scopes around a place are the ones in hand.
* `Scope.Sees`: a state in which names mean what they mean at a place.
* `Scope.Walked`: what a walk over some spots reports, records and links.

## Main statements

* `Scope.expr_walked`, `Scope.stmt_walked`, `Scope.stmts_walked`, `Scope.function_walked`: walks are
  as the places of their nodes say.
-/

namespace Arbor

open Scope (Context State)

/-! ### Contexts of places -/

/-- What resolution has to know of a place apart from scopes. -/
def Place.context (place : Place) : Context where
  function := place.function?.map fun (isMethod, name) =>
    if isMethod then Scope.methodKind name else .function
  inClass := place.class?.map fun inherits => if inherits then .derived else .plain
  inLoop := place.inLoop

namespace Place

/-- The top-level names that are declared before a place. -/
def topNames : Place → List String
  | [] => []
  | .item .program earlier own :: _ => earlier ++ own
  | _ :: outer => topNames outer

/-- The names declared so far are no part of a context. -/
theorem context_item (seat : Seat) (earlier own earlier' own' : List String) (outer : Place) :
    context (.item seat earlier own :: outer) = context (.item seat earlier' own' :: outer) := by
  cases seat <;> rfl

/-- A list of statements inside a program stands for a scope, with the names declared so far in
it. -/
theorem scopes_item {seat : Seat} (inside : seat ≠ .program) (earlier own : List String)
    (outer : Place) : scopes (.item seat earlier own :: outer) = (earlier ++ own) :: outer.scopes := by
  cases seat with
  | program => exact absurd rfl inside
  | block | body => rfl

/-- Inside a program a name is declared again if it was declared before in the same list. -/
theorem redeclares_item {seat : Seat} (inside : seat ≠ .program) (earlier own : List String)
    (outer : Place) (name : String) :
    redeclares (.item seat earlier own :: outer) name = decide (name ∈ earlier) := by
  cases seat with
  | program => exact absurd rfl inside
  | block | body => rfl

/-- An initializer reads its own variable if it mentions the name that it initializes. -/
theorem readsOwn_item {seat : Seat} (inside : seat ≠ .program) (globals earlier own : List String)
    (outer : Place) (name : Token) (other : String) :
    readsOwn globals (.initializer name :: .item seat earlier own :: outer) other
      = decide (other = name.lexeme) := by
  cases seat with
  | program => exact absurd rfl inside
  | block | body => rfl

/-- A place is in a function if its context says so. -/
theorem isNone_function (place : Place) : place.context.function.isNone = place.function?.isNone :=
  Option.isNone_map

/-- A place is in an initializer if its context says so: methods called `init` are the only
functions of that kind. -/
theorem function_eq_initializer (place : Place) :
    (place.context.function == some .initializer) = place.inInitializer := by
  unfold context inInitializer
  dsimp only
  cases place.function? with
  | none => rfl
  | some found =>
    obtain ⟨isMethod, name⟩ := found
    cases isMethod with
    | false => rfl
    | true =>
      by_cases init : name.lexeme = "init"
      · simp [Scope.methodKind, init]
      · have other : (name.lexeme == "init") = false := beq_eq_false_iff_ne.mpr init
        simp only [Option.map_some, Scope.methodKind, if_neg init, other]
        rfl

/-- Inside a class there is a scope for `this`, inside one with a superclass another for `super`.
The induction goes outward to the class. -/
theorem mem_scopes_of_class? : ∀ {place : Place} {inherits : Bool},
    place.class? = some inherits →
      ["this"] ∈ place.scopes ∧ (inherits = true → ["super"] ∈ place.scopes)
  | .methods inherits :: outer, _, found => by
    cases found
    cases inherits <;> simp [scopes, Around.scopes]
  | .item seat earlier own :: outer, _, found => by
    obtain ⟨this, super⟩ := @mem_scopes_of_class? outer _ found
    exact ⟨List.mem_append_right _ this, fun inherits => List.mem_append_right _ (super inherits)⟩
  | .loop :: outer, _, found | .initializer _ :: outer, _, found =>
    @mem_scopes_of_class? outer _ found

/-- A name that has a scope to itself is found, in that scope or in one further in. -/
theorem isSome_distance? {place : Place} {name : String} (there : [name] ∈ place.scopes) :
    ∃ d, place.distance? name = some d := by
  cases found : place.distance? name with
  | some d => exact ⟨d, rfl⟩
  | none =>
    have nowhere := List.findIdx?_eq_none_iff.mp found _ there
    simp at nowhere

end Place

namespace Scope

open Stateful

variable {globals : List String} {place outer : Place} {s s₁ s' : State}

/-! ### States at places -/

/-- A scope that holds some names, all of them ready. -/
def Holds (names : List String) (scope : Bindings Bool) : Prop :=
  ∀ name, scope.get? name = if name ∈ names then some true else none

/-- A scope contains the names that it holds. -/
theorem Holds.contains {names : List String} {scope : Bindings Bool} (holds : Holds names scope)
    (name : String) : scope.contains name = decide (name ∈ names) := by
  unfold Bindings.contains
  rw [holds name]
  by_cases mem : name ∈ names <;> simp [mem]

/-- All names of a scope at hand are ready. -/
theorem Holds.ready {names : List String} {scope : Bindings Bool} (holds : Holds names scope)
    (name : String) : scope.get? name ≠ some false := by
  rw [holds name]
  split <;> simp

/-- A new scope holds nothing. -/
theorem holds_empty : Holds [] Bindings.empty :=
  fun _ => (if_neg List.not_mem_nil).symm

/-- The scopes of keywords hold one name each. -/
theorem holds_single (name : String) : Holds [name] (Bindings.empty.put name true) := by
  intro other
  rw [Bindings.get?_put]
  by_cases same : other = name
  · rw [if_pos same, if_pos (List.mem_singleton.mpr same)]
  · rw [if_neg same, if_neg fun mem => same (List.mem_singleton.mp mem)]
    rfl

/-- Names that are introduced are added to those a scope holds. -/
theorem Holds.introduced {names more : List String} {scope : Bindings Bool}
    (holds : Holds names scope) : Holds (names ++ more) (more.foldl introduced scope) := by
  intro name
  rw [get?_foldl_introduced, holds name]
  by_cases late : name ∈ more
  · simp [late]
  · simp [late]

/-- Behind some statements a scope holds what it held, and the names they introduce. -/
theorem Holds.settled {names more : List String} {known after : Bindings Bool}
    (holds : Holds names known) (settled : Settled more known after) :
    Holds (names ++ more) after := by
  intro name
  rw [settled name, holds name]
  by_cases late : name ∈ more
  · simp [late]
  · simp [late]

/-- A state in which the scopes around a place are the ones in hand, with everything ready. -/
structure Stands (globals : List String) (place : Place) (s : State) : Prop where
  scopes : List.Forall₂ Holds place.scopes s.scopes
  top : s.scopes = [] → Holds (globals ++ place.topNames) s.globals
  ready : ∀ name, place.readsOwn globals name = false

/-- A state in which names mean what they mean at a place. -/
structure Sees (globals : List String) (place : Place) (s : State) : Prop where
  distance : ∀ name, distance? s.scopes name = place.distance? name
  unready : ∀ name, s.isUnready name = place.readsOwn globals name

/-- The first scope that has a name is found alike on both sides, in the scopes of the walk and in
the names that a place lists. -/
theorem distance?_eq_findIdx? {name : String} {names : List (List String)}
    {scopes : List (Bindings Bool)}
    (alike : List.Forall₂ (fun names scope => scope.contains name = decide (name ∈ names))
      names scopes) :
    distance? scopes name = names.findIdx? fun names => decide (name ∈ names) := by
  unfold distance?
  induction alike with
  | nil => rfl
  | cons same _ ih => rw [List.findIdx?_cons, List.findIdx?_cons, same, ih]

namespace Stands

/-- Where the scopes around a place are at hand, names mean what they mean there.  The scopes are
found through in the same order, so the distances are equal. -/
theorem sees (stands : Stands globals place s) : Sees globals place s := by
  refine ⟨fun name => ?_, fun name => ?_⟩
  · exact distance?_eq_findIdx? (stands.scopes.imp fun _ _ holds => holds.contains name)
  · rw [stands.ready name]
    unfold State.isUnready
    split
    · next top => exact beq_eq_false_iff_ne.mpr ((stands.top top).ready name)
    · next scope outer scopes =>
      have all := stands.scopes
      rw [scopes] at all
      obtain ⟨names, _, holds, -, -⟩ := List.forall₂_cons_right_iff.mp all
      exact beq_eq_false_iff_ne.mpr (holds.ready name)

/-- Walks that introduce nothing leave a state at its place. -/
theorem of_same (stands : Stands globals place s) (scopes : s'.scopes = s.scopes)
    (top : s.scopes = [] → Settled [] s.globals s'.globals) : Stands globals place s' := by
  refine ⟨scopes ▸ stands.scopes, fun empty => ?_, stands.ready⟩
  rw [scopes] at empty
  have settled := (stands.top empty).settled (top empty)
  rwa [List.append_nil] at settled

/-- In the list of a program no scope is open; in any other the innermost scope holds the names that
were introduced earlier. -/
theorem top_or_inner {seat : Seat} {earlier : List String} (rooted : seat = .program → outer = [])
    (stands : Stands globals (.item seat earlier [] :: outer) s) :
    (seat = .program ∧ outer = [] ∧ s.scopes = []) ∨
      (seat ≠ .program ∧ ∃ scope rest, Holds earlier scope ∧
        List.Forall₂ Holds outer.scopes rest ∧ s.scopes = scope :: rest) := by
  by_cases program : seat = .program
  · have alone := rooted program
    subst alone program
    exact .inl ⟨rfl, rfl, List.forall₂_nil_left_iff.mp stands.scopes⟩
  · have all := stands.scopes
    rw [Place.scopes_item program, List.append_nil] at all
    exact .inr ⟨program, List.forall₂_cons_left_iff.mp all⟩

/-- Walks that introduce names move a state on in the list of its place.  Among the globals the
names are settled by the statement itself, and elsewhere they are those of the innermost scope. -/
theorem introduce {seat : Seat} {earlier names earlier' own' : List String}
    (rooted : seat = .program → outer = [])
    (stands : Stands globals (.item seat earlier [] :: outer) s)
    (scopes : s'.scopes = introduce names s.scopes)
    (top : s.scopes = [] → Settled names s.globals s'.globals)
    (split : earlier' ++ own' = earlier ++ names) :
    Stands globals (.item seat earlier' own' :: outer) s' := by
  obtain ⟨rfl, rfl, empty⟩ | ⟨program, scope, rest, holds, others, here⟩ := stands.top_or_inner rooted
  · have before := stands.top empty
    rw [empty] at scopes
    refine ⟨scopes ▸ .nil, fun _ => ?_, fun _ => rfl⟩
    have after := before.settled (top empty)
    simp only [Place.topNames, List.append_nil, List.append_assoc] at after ⊢
    rwa [split]
  · rw [here] at scopes
    refine ⟨?_, fun empty => ?_, fun _ => rfl⟩
    · rw [Place.scopes_item program, scopes, split]
      exact .cons holds.introduced others
    · rw [scopes] at empty
      cases empty

/-- A new scope around a place.  It holds what is ready from the start, and nothing in it is being
declared. -/
theorem opened {names ready : List String} (stands : Stands globals place s) (around : Around)
    (scopes : around.scopes = [names])
    (holds : Holds names (ready.foldl (fun scope name => scope.put name true) Bindings.empty))
    (plain : ∀ name, Place.readsOwn globals (around :: place) name = false) :
    Stands globals (around :: place) (s.opened ready) := by
  refine ⟨?_, fun empty => ?_, plain⟩
  · have all : Place.scopes (around :: place) = names :: place.scopes := by
      rw [Place.scopes, List.flatMap_cons, scopes]
      rfl
    rw [all]
    exact .cons holds stands.scopes
  · cases empty

/-- The two scopes around the methods of a class with a superclass. -/
theorem openedTwice (stands : Stands globals place s) :
    Stands globals (.methods true :: place) ((s.opened ["super"]).opened ["this"]) := by
  refine ⟨?_, fun empty => ?_, fun _ => rfl⟩
  · exact .cons (holds_single "this") (.cons (holds_single "super") stands.scopes)
  · cases empty

/-- In the initializer of a variable its name is there, but not ready.  If it is among the globals
and was known before, then it stays ready, since the declaration leaves it alone. -/
theorem declared {seat : Seat} {earlier : List String} {name : Token} {u : Unit}
    (rooted : seat = .program → outer = [])
    (stands : Stands globals (.item seat earlier [] :: outer) s)
    (ran : (declare name).run s = .ok u s') :
    Sees globals (.initializer name :: .item seat earlier [name.lexeme] :: outer) s' := by
  obtain ⟨rfl, rfl, empty⟩ | ⟨program, scope, rest, holds, others, here⟩ := stands.top_or_inner rooted
  · have known := stands.top empty
    rw [Place.topNames, List.append_nil] at known
    rw [run_declare_top empty, known.contains] at ran
    cases ran
    by_cases mem : name.lexeme ∈ globals ++ earlier
    · rw [if_pos (decide_eq_true mem)]
      refine ⟨fun other => ?_, fun other => ?_⟩
      · rw [empty]
        rfl
      · simp only [State.isUnready, empty]
        rw [beq_eq_false_iff_ne.mpr (known.ready other)]
        refine (decide_eq_false ?_).symm
        rintro ⟨rfl, notGlobal, notEarlier⟩
        exact (List.mem_append.mp mem).elim notGlobal notEarlier
    · rw [if_neg (by simpa using mem)]
      refine ⟨fun other => ?_, fun other => ?_⟩
      · dsimp only
        rw [empty]
        rfl
      · simp only [State.isUnready, empty, Bindings.get?_put, Place.readsOwn]
        by_cases same : other = name.lexeme
        · subst same
          simpa using mem
        · rw [if_neg same, beq_eq_false_iff_ne.mpr (known.ready other)]
          exact (decide_eq_false fun both => same both.1).symm
  · have scopes := (declare_effect ran).scopes
    rw [here] at scopes
    refine ⟨fun other => ?_, fun other => ?_⟩
    · rw [scopes]
      have names : Place.scopes (.initializer name :: .item seat earlier [name.lexeme] :: outer)
          = (earlier ++ [name.lexeme]) :: outer.scopes := Place.scopes_item program _ _ _
      rw [Place.distance?, names]
      refine distance?_eq_findIdx? (.cons ?_ (others.imp fun _ _ holds => holds.contains other))
      rw [Bindings.contains_put, holds.contains]
      by_cases same : other = name.lexeme <;> simp [same]
    · rw [Place.readsOwn_item program]
      simp only [State.isUnready, scopes, marked, Bindings.get?_put]
      by_cases same : other = name.lexeme
      · simp [same]
      · rw [if_neg same, beq_eq_false_iff_ne.mpr (holds.ready other), decide_eq_false same]

end Stands

/-! ### What walks leave behind -/

/-- What a walk added: reports, and resolutions that were recorded. -/
structure Noted (reports : List Diagnostic) (found : List Resolution) (s s' : State) : Prop where
  reports : s'.reports.toList = s.reports.toList ++ reports
  resolutions : s'.resolutions.toList = s.resolutions.toList ++ found

/-- A step that leaves the records alone has noted nothing. -/
theorem Noted.of_eq (reports : s'.reports = s.reports) (resolutions : s'.resolutions = s.resolutions) :
    Noted [] [] s s' :=
  ⟨by rw [reports, List.append_nil], by rw [resolutions, List.append_nil]⟩

/-- What two steps note is what the first one notes and then what the second one does. -/
theorem Noted.trans {reports more : List Diagnostic} {found others : List Resolution}
    (first : Noted reports found s s₁) (second : Noted more others s₁ s') :
    Noted (reports ++ more) (found ++ others) s s' :=
  ⟨by rw [second.reports, first.reports, List.append_assoc],
    by rw [second.resolutions, first.resolutions, List.append_assoc]⟩

/-- What a walk over some spots did: it reported what they violate, and made them into spots that are
linked as their places say, recording each. -/
structure Walked (globals : List String) (spots spots' : List Spot) (s s' : State) : Prop where
  noted : Noted (spots.flatMap (Spot.violations globals)) (spots'.filterMap Spot.resolution?) s s'
  linked : ∀ spot ∈ spots', spot.Linked globals

namespace Walked

variable {spots spots' more more' : List Spot}

/-- Nothing is walked without a spot. -/
theorem refl (s : State) : Walked globals [] [] s s :=
  ⟨.of_eq rfl rfl, nofun⟩

/-- Walks one after the other report in the order of their spots. -/
theorem append (first : Walked globals spots spots' s s₁)
    (second : Walked globals more more' s₁ s') :
    Walked globals (spots ++ more) (spots' ++ more') s s' := by
  refine ⟨?_, fun spot mem => ?_⟩
  · rw [List.flatMap_append, List.filterMap_append]
    exact first.noted.trans second.noted
  · exact (List.mem_append.mp mem).elim (first.linked spot) (second.linked spot)

/-- A statement or a parameter comes with its own reports, and carries no distance.  What is walked
behind it is put behind these. -/
theorem cons {node node' : Node} {reports : List Diagnostic} (here : Noted reports [] s s₁)
    (violates : Spot.violations globals ⟨place, node⟩ = reports)
    (unrecorded : Spot.resolution? ⟨place, node'⟩ = none)
    (unlinked : Spot.Linked globals ⟨place, node'⟩) (rest : Walked globals spots spots' s₁ s') :
    Walked globals (⟨place, node⟩ :: spots) (⟨place, node'⟩ :: spots') s s' := by
  refine ⟨?_, fun spot mem => ?_⟩
  · rw [List.flatMap_cons, violates, List.filterMap_cons_none unrecorded]
    exact here.trans rest.noted
  · rcases List.mem_cons.mp mem with rfl | mem
    · exact unlinked
    · exact rest.linked spot mem

/-- A reference is reported on and looked up.  What is reported is what its place says, and so is
the distance. -/
theorem reference {e e' : Expr} {reports : List Diagnostic} {found : Option Resolution}
    (here : Noted reports found.toList s s')
    (violates : Spot.violations globals ⟨place, .expr e⟩ = reports)
    (recorded : Spot.resolution? ⟨place, .expr e'⟩ = found)
    (linked : Spot.Linked globals ⟨place, .expr e'⟩) :
    Walked globals [⟨place, .expr e⟩] [⟨place, .expr e'⟩] s s' := by
  refine ⟨?_, fun spot mem => ?_⟩
  · rw [List.flatMap_singleton, violates]
    have same : [(⟨place, .expr e'⟩ : Spot)].filterMap Spot.resolution? = found.toList := by
      rw [← recorded]
      cases whole : Spot.resolution? ⟨place, .expr e'⟩ <;> simp [whole]
    rwa [same]
  · cases List.mem_singleton.mp mem
    exact linked

/-- Opening and closing a scope is not noted. -/
theorem within {α : Type} {ready : List String} {body : Resolve α} {a : α}
    (ran : (within ready body).run s = .ok a s')
    (inner : ∀ s₁, body.run (s.opened ready) = .ok a s₁ →
      Walked globals spots spots' (s.opened ready) s₁) : Walked globals spots spots' s s' := by
  obtain ⟨s₁, inside, rfl⟩ := within_run.mp ran
  have walked := inner s₁ inside
  exact ⟨⟨walked.noted.reports, walked.noted.resolutions⟩, walked.linked⟩

end Walked

/-- A report under a condition is made exactly if the condition holds, and nothing else is done. -/
theorem reportIf_noted {condition : Bool} {token : Token} {error : ScopeError} {u : Unit}
    (ran : (reportIf condition token error).run s = .ok u s') :
    Noted (token.blamed error condition) [] s s' := by
  cases condition with
  | false =>
    cases ran
    exact .of_eq rfl rfl
  | true =>
    cases ran
    exact ⟨Array.toList_push .., (List.append_nil _).symm⟩

/-- A reference is recorded exactly if it has a distance.  Nothing is reported on it, even if it has
none: then it is a global that may be declared later. -/
theorem link_noted {kind : NodeKind} {name : Token} {hops : Option Nat}
    (ran : (link kind name).run s = .ok hops s') :
    Noted [] (hops.map (Resolution.mk kind name.lexeme name.line)).toList s s' := by
  unfold link at ran
  rw [run_modifyGet_ok] at ran
  split at ran
  · cases ran
    exact ⟨(List.append_nil _).symm, Array.toList_push ..⟩
  · cases ran
    exact .of_eq rfl rfl

/-- Making a name ready is not recorded. -/
theorem define_noted {name : Token} {u : Unit} (ran : (define name).run s = .ok u s') :
    Noted [] [] s s' := by
  unfold define at ran
  rw [run_modify_ok] at ran
  subst ran
  cases s.scopes <;> exact .of_eq rfl rfl

/-- A declaration is reported if its scope has the name already.  The globals are no scope in this
sense: there a name may be declared again. -/
theorem declare_noted {seat : Seat} {earlier : List String} {name : Token} {u : Unit}
    (rooted : seat = .program → outer = [])
    (stands : Stands globals (.item seat earlier [] :: outer) s)
    (ran : (declare name).run s = .ok u s') (own : List String) :
    Noted (name.blamed .alreadyDeclared
      (Place.redeclares (.item seat earlier own :: outer) name.lexeme)) [] s s' := by
  obtain ⟨rfl, rfl, empty⟩ | ⟨program, scope, rest, holds, -, here⟩ := stands.top_or_inner rooted
  · rw [run_declare_top empty] at ran
    cases ran
    split <;> exact .of_eq rfl rfl
  · rw [run_declare_local here, run_bind_ok] at ran
    obtain ⟨_, s₁, reported, changed⟩ := ran
    rw [run_modify_ok] at changed
    subst changed
    have noted := reportIf_noted reported
    rw [holds.contains, ← Place.redeclares_item program earlier own outer] at noted
    exact ⟨noted.reports, noted.resolutions⟩

/-- A name that is ready as soon as it is declared.  It is reported if the place has the name
already. -/
theorem named_noted {seat : Seat} {earlier : List String} {name : Token} {u v : Unit}
    (rooted : seat = .program → outer = [])
    (stands : Stands globals (.item seat earlier [] :: outer) s)
    (declared : (declare name).run s = .ok u s₁) (defined : (define name).run s₁ = .ok v s') :
    Noted (name.blamed .alreadyDeclared
      (Place.redeclares (.item seat earlier [name.lexeme] :: outer) name.lexeme)) [] s s' := by
  have noted := (declare_noted rooted stands declared [name.lexeme]).trans (define_noted defined)
  rwa [List.append_nil] at noted

/-! ### Expressions -/

/-- Resolving an expression leaves the scopes as they are, so names mean afterwards what they
meant. -/
theorem Sees.afterExpr {context : Context} {e e' : Expr} (sees : Sees globals place s)
    (ran : (expr context e).run s = .ok e' s') : Sees globals place s' := by
  have scopes : s'.scopes = s.scopes := (expr_effect context e ran).scopes
  have known := passive_leavesGlobals.expr context e _ _ _ ran
  refine ⟨fun name => by rw [scopes, sees.distance], fun name => ?_⟩
  rw [← sees.unready name]
  unfold State.isUnready
  rw [scopes, known]

/-- So the scopes around the place are still at hand. -/
theorem Stands.afterExpr {context : Context} {e e' : Expr} (stands : Stands globals place s)
    (ran : (expr context e).run s = .ok e' s') : Stands globals place s' :=
  stands.of_same (expr_effect context e ran).scopes
    fun _ => .of_eq (passive_leavesGlobals.expr context e _ _ _ ran)

/-- A variable is read as its place says, whatever the context.  It is reported if it is read in its
own initializer, and is looked up nevertheless. -/
theorem var_walked {context : Context} {name : Token} {hops : Option Nat} {e' : Expr}
    (sees : Sees globals place s) (ran : (expr context (.var name hops)).run s = .ok e' s') :
    Walked globals (Expr.spots place (.var name hops)) (e'.spots place) s s' := by
  simp only [expr, run_bind_ok, run_pure_ok, run_get_ok] at ran
  obtain ⟨_, _, ⟨rfl, rfl⟩, _, s₁, reported, found, _, linked, rfl, rfl⟩ := ran
  have noted := (reportIf_noted reported).trans (link_noted linked)
  rw [sees.unready, List.append_nil, List.nil_append] at noted
  refine .reference noted rfl (by cases found <;> rfl) ?_
  have distance := (link_effect linked).1
  rw [(reportIf_effect reported).scopes] at distance
  exact distance.trans (sees.distance name.lexeme)

/-- What is noted of a keyword: the error, if there is one, or the distance found. -/
theorem linkUnless_noted {error? : Option ScopeError} {kind : NodeKind} {keyword : Token}
    {hops : Option Nat} (ran : (linkUnless error? kind keyword).run s = .ok hops s') :
    Noted (error?.toList.map (Diagnostic.scope keyword))
        (hops.map (Resolution.mk kind keyword.lexeme keyword.line)).toList s s' ∧
      hops = if error?.isSome then none else distance? s.scopes keyword.lexeme := by
  cases error? with
  | none => exact ⟨link_noted ran, (link_effect ran).1⟩
  | some error =>
    cases ran
    exact ⟨⟨Array.toList_push .., (List.append_nil _).symm⟩, rfl⟩

/-- A keyword that is not reported has a distance, as a scope around the place holds it; and one
that is reported has none. -/
theorem linked_keyword {error? : Option ScopeError} {keyword : Token} {word : String}
    {hops : Option Nat} (spelled : keyword.lexeme = word) (sees : Sees globals place s)
    (found : hops = if error?.isSome then none else distance? s.scopes keyword.lexeme)
    (there : error? = none → [word] ∈ place.scopes) :
    (hops = none ↔ error?.toList.map (Diagnostic.scope keyword) ≠ []) ∧
      ∀ d, hops = some d → place.distance? word = some d := by
  cases error? with
  | some error =>
    cases found
    exact ⟨⟨fun _ => List.cons_ne_nil _ _, fun _ => rfl⟩, nofun⟩
  | none =>
    obtain ⟨d, distance⟩ := Place.isSome_distance? (there rfl)
    rw [spelled, sees.distance, distance] at found
    cases found
    exact ⟨⟨nofun, fun loud => absurd rfl loud⟩, fun _ same => same ▸ distance⟩

/-- What is wrong with `this` can be told from the place: it is outside all classes. -/
theorem thisError?_context (place : Place) (keyword : Token) :
    (thisError? place.context).toList.map (Diagnostic.scope keyword)
      = keyword.blamed .thisOutsideClass place.class?.isNone := by
  unfold thisError? Place.context
  dsimp only
  cases place.class? <;> rfl

/-- What is wrong with `super` can be told from the place, and at most one of two things is: there
is no class around, or the class around has no superclass. -/
theorem superError?_context (place : Place) (keyword : Token) :
    (superError? place.context).toList.map (Diagnostic.scope keyword)
      = keyword.blamed .superOutsideClass place.class?.isNone ++
        keyword.blamed .superWithoutSuperclass (place.class? == some false) := by
  unfold superError? Place.context
  dsimp only
  cases place.class? with
  | none => rfl
  | some inherits => cases inherits <;> rfl

/-- Where nothing is wrong with `this`, a scope around the place holds it. -/
theorem mem_scopes_of_thisError? (fine : thisError? place.context = none) :
    ["this"] ∈ place.scopes := by
  unfold thisError? Place.context at fine
  dsimp only at fine
  cases found : place.class? with
  | none =>
    rw [found] at fine
    cases fine
  | some inherits => exact (Place.mem_scopes_of_class? found).1

/-- Where nothing is wrong with `super`, a scope around the place holds it. -/
theorem mem_scopes_of_superError? (fine : superError? place.context = none) :
    ["super"] ∈ place.scopes := by
  unfold superError? Place.context at fine
  dsimp only at fine
  cases found : place.class? with
  | none =>
    rw [found] at fine
    cases fine
  | some inherits =>
    cases inherits with
    | false =>
      rw [found] at fine
      cases fine
    | true => exact (Place.mem_scopes_of_class? found).2 rfl

/-- Walks over references at one place are put together like all others. -/
theorem Walked.append_exprs {a b a' b' : List Expr}
    (first : Walked globals (a.map fun e => ⟨place, .expr e⟩) (a'.map fun e => ⟨place, .expr e⟩) s s₁)
    (second : Walked globals (b.map fun e => ⟨place, .expr e⟩) (b'.map fun e => ⟨place, .expr e⟩)
      s₁ s') :
    Walked globals ((a ++ b).map fun e => ⟨place, .expr e⟩) ((a' ++ b').map fun e => ⟨place, .expr e⟩)
      s s' := by
  rw [List.map_append, List.map_append]
  exact first.append second

mutual

/-- Expressions are resolved as their place says.  The induction is on the expression: each
reference is a spot of the place, and the parts stand in the same place as the whole. -/
theorem expr_walked (place : Place) : ∀ (e : Expr) {e' : Expr} {s s' : State},
    e.Formed Token.Spelled → Sees globals place s → (expr place.context e).run s = .ok e' s' →
      Walked globals (e.spots place) (e'.spots place) s s'
  | .literal value, _, s, _, _, _, ran => by
    cases ran
    exact .refl s
  | .grouping inner, _, _, _, formed, sees, ran => by
    simp only [expr, run_bind_ok, run_pure_ok] at ran
    obtain ⟨_, _, ran, rfl, rfl⟩ := ran
    have walked := expr_walked place inner formed sees ran
    exact walked
  | .var name hops, _, _, _, _, sees, ran => var_walked sees ran
  | .assign name value hops, _, _, _, formed, sees, ran => by
    simp only [expr, run_bind_ok, run_pure_ok] at ran
    obtain ⟨_, s₁, ran, found, _, linked, rfl, rfl⟩ := ran
    refine (expr_walked place value formed.2.2 sees ran).append_exprs ?_
    refine .reference (link_noted linked) rfl (by cases found <;> rfl) ?_
    exact (link_effect linked).1.trans ((sees.afterExpr ran).distance name.lexeme)
  | .unary operator right, _, _, _, formed, sees, ran => by
    simp only [expr, run_bind_ok, run_pure_ok] at ran
    obtain ⟨_, _, ran, rfl, rfl⟩ := ran
    have walked := expr_walked place right formed.2.2 sees ran
    exact walked
  | .binary left operator right, _, _, _, formed, sees, ran
  | .logical left operator right, _, _, _, formed, sees, ran => by
    simp only [expr, run_bind_ok, run_pure_ok] at ran
    obtain ⟨_, _, ranLeft, _, _, ranRight, rfl, rfl⟩ := ran
    exact (expr_walked place left formed.2.2.1 sees ranLeft).append_exprs
      (expr_walked place right formed.2.2.2 (sees.afterExpr ranLeft) ranRight)
  | .call callee paren arguments, _, _, _, formed, sees, ran => by
    simp only [expr, run_bind_ok, run_pure_ok] at ran
    obtain ⟨_, _, ranCallee, _, _, ranArguments, rfl, rfl⟩ := ran
    exact (expr_walked place callee formed.2.2.1 sees ranCallee).append_exprs
      (exprs_walked place arguments formed.2.2.2 (sees.afterExpr ranCallee) ranArguments)
  | .getField object name, _, _, _, formed, sees, ran => by
    simp only [expr, run_bind_ok, run_pure_ok] at ran
    obtain ⟨_, _, ran, rfl, rfl⟩ := ran
    have walked := expr_walked place object formed.2.2 sees ran
    exact walked
  | .setField object name value, _, _, _, formed, sees, ran => by
    simp only [expr, run_bind_ok, run_pure_ok] at ran
    obtain ⟨_, _, ranValue, _, _, ranObject, rfl, rfl⟩ := ran
    exact (expr_walked place value formed.2.2.2 sees ranValue).append_exprs
      (expr_walked place object formed.2.2.1 (sees.afterExpr ranValue) ranObject)
  | .this keyword hops, _, _, _, formed, sees, ran => by
    simp only [expr, run_bind_ok, run_pure_ok] at ran
    obtain ⟨found, _, linked, rfl, rfl⟩ := ran
    obtain ⟨noted, distance⟩ := linkUnless_noted linked
    have facts := linked_keyword (formed.2.this formed.1) sees distance mem_scopes_of_thisError?
    rw [thisError?_context] at noted facts
    exact .reference noted rfl (by cases found <;> rfl) facts
  | .super keyword method hops, _, _, _, formed, sees, ran => by
    simp only [expr, run_bind_ok, run_pure_ok] at ran
    obtain ⟨found, _, linked, rfl, rfl⟩ := ran
    obtain ⟨noted, distance⟩ := linkUnless_noted linked
    have facts := linked_keyword (formed.2.1.super formed.1) sees distance
      mem_scopes_of_superError?
    rw [superError?_context] at noted facts
    exact .reference noted rfl (by cases found <;> rfl) facts
  | .misfit what, _, _, _, formed, _, _ => formed.elim
termination_by structural e => e

/-- Expressions in order are walked in order, at one place.  No expression introduces a name, so the
place is the same for all of them. -/
theorem exprs_walked (place : Place) : ∀ (es : List Expr) {es' : List Expr} {s s' : State},
    Expr.AllFormed Token.Spelled es → Sees globals place s →
      (exprs place.context es).run s = .ok es' s' →
        Walked globals ((Expr.allReferences es).map fun e => ⟨place, .expr e⟩)
          ((Expr.allReferences es').map fun e => ⟨place, .expr e⟩) s s'
  | [], _, s, _, _, _, ran => by
    cases ran
    exact .refl s
  | e :: rest, _, _, _, formed, sees, ran => by
    simp only [exprs, run_bind_ok, run_pure_ok] at ran
    obtain ⟨_, _, ranFirst, _, _, ranRest, rfl, rfl⟩ := ran
    exact (expr_walked place e formed.1 sees ranFirst).append_exprs
      (exprs_walked place rest formed.2 (sees.afterExpr ranFirst) ranRest)
termination_by structural es => es

end

/-- An expression that is left out has no spots. -/
theorem expr?_walked {e? e?' : Option Expr} (formed : Expr.OptionFormed Token.Spelled e?)
    (sees : Sees globals place s) (ran : (expr? place.context e?).run s = .ok e?' s') :
    Walked globals (Expr.optionSpots place e?) (Expr.optionSpots place e?') s s' := by
  cases e? with
  | none =>
    cases ran
    exact .refl s
  | some e =>
    obtain ⟨e', walk, rfl⟩ := run_map_ok.mp ran
    exact expr_walked place e formed sees walk

/-! ### Statements -/

/-- A state in which a statement at a place is about to be resolved: either it introduces nothing,
or it stands in the list of its place and its names are not there yet. -/
inductive Enters (globals : List String) (s : State) : Place → Stmt → Prop where
  | inside {place : Place} {st : Stmt} (plain : st.isDeclaration = false)
      (stands : Stands globals place s) : Enters globals s place st
  | listed {seat : Seat} {earlier : List String} {outer : Place} {st : Stmt}
      (rooted : seat = .program → outer = [])
      (stands : Stands globals (.item seat earlier [] :: outer) s) :
      Enters globals s (.item seat earlier st.introduces :: outer) st

/-- At a statement that declares nothing the scopes of its own place are at hand. -/
theorem Enters.stands {st : Stmt} (enters : Enters globals s place st)
    (formed : st.Formed Token.Spelled) (plain : st.isDeclaration = false) :
    Stands globals place s := by
  cases enters with
  | inside _ stands => exact stands
  | listed _ stands => rwa [Stmt.introduces_eq_nil formed plain]

/-- Statements that are no declarations leave the state at its place. -/
theorem Stands.afterPlain {context : Context} {st st' : Stmt} (stands : Stands globals place s)
    (formed : st.Formed Token.Spelled) (plain : st.isDeclaration = false)
    (ran : (stmt context st).run s = .ok st' s') : Stands globals place s' := by
  have scopes := (stmt_effect context st ran).2.scopes
  have settled := globals_stmt context st ran
  rw [Stmt.introduces_eq_nil formed plain] at scopes settled
  exact stands.of_same (scopes.trans (introduce_nil _)) settled

/-- A function has a scope of its own, which is closed behind it. -/
theorem Stands.afterFunction {context : Context} {kind : FunctionKind} {decl decl' : FunDecl}
    (stands : Stands globals place s) (ran : (function context kind decl).run s = .ok decl' s') :
    Stands globals place s' :=
  stands.of_same (function_effect context kind decl ran).2.scopes
    fun _ => .of_eq (function_leavesGlobals context kind decl _ _ _ ran)

/-- A statement of a list hands its names on to those behind it. -/
theorem Stands.afterItem {seat : Seat} {earlier : List String} {context : Context} {st st' : Stmt}
    (rooted : seat = .program → outer = [])
    (stands : Stands globals (.item seat earlier [] :: outer) s)
    (ran : (stmt context st).run s = .ok st' s') :
    Stands globals (.item seat (earlier ++ st.introduces) [] :: outer) s' :=
  stands.introduce rooted (stmt_effect context st ran).2.scopes (globals_stmt context st ran)
    (List.append_nil _)

/-- A name that is declared and ready at once. -/
theorem Stands.named {seat : Seat} {earlier earlier' own' : List String} {name : Token} {u v : Unit}
    (rooted : seat = .program → outer = [])
    (stands : Stands globals (.item seat earlier [] :: outer) s)
    (declared : (declare name).run s = .ok u s₁) (defined : (define name).run s₁ = .ok v s')
    (split : earlier' ++ own' = earlier ++ [name.lexeme]) :
    Stands globals (.item seat earlier' own' :: outer) s' :=
  stands.introduce rooted
    (declare_define_effect (run_bind_ok.mpr ⟨_, s₁, declared, defined⟩)).scopes
    (fun top => settled_declare_define top declared defined) split

/-- Parameters are declared one after the other, so each is a spot behind those in front of it.  One
of a name that is in front of it already is reported. -/
theorem declareAll_walked {seat : Seat} (inside : seat ≠ .program) : ∀ (params : List Token)
    {earlier : List String} {u : Unit} {s s' : State},
    Stands globals (.item seat earlier [] :: outer) s → (declareAll params).run s = .ok u s' →
      Walked globals (Token.paramSpots seat earlier outer params)
          (Token.paramSpots seat earlier outer params) s s' ∧
        Stands globals (.item seat (earlier ++ params.map Token.lexeme) [] :: outer) s'
  | [], earlier, _, s, _, stands, ran => by
    cases ran
    refine ⟨.refl s, ?_⟩
    rwa [List.map_nil, List.append_nil]
  | param :: rest, earlier, _, s, s', stands, ran => by
    simp only [declareAll, run_bind_ok] at ran
    obtain ⟨_, s₁, declared, _, s₂, defined, ran⟩ := ran
    have rooted : seat = .program → outer = [] := fun program => absurd program inside
    have after := stands.named rooted declared defined (List.append_nil _)
    obtain ⟨walked, stands'⟩ := declareAll_walked inside rest after ran
    refine ⟨.cons (named_noted rooted stands declared defined) rfl rfl trivial walked, ?_⟩
    rwa [List.append_assoc] at stands'

mutual

/-- Statements are resolved as their place says.  The induction is on the statement, and a place
grows as the resolver opens scopes and introduces names, so the two stay in step. -/
theorem stmt_walked : ∀ (st : Stmt) {place : Place} {st' : Stmt} {s s' : State},
    st.Formed Token.Spelled → Enters globals s place st →
      (stmt place.context st).run s = .ok st' s' →
        Walked globals (st.spots place) (st'.spots place) s s'
  | .expr e, _, _, _, _, formed, enters, ran | .print e, _, _, _, _, formed, enters, ran => by
    simp only [stmt, run_bind_ok, run_pure_ok] at ran
    obtain ⟨_, _, ran, rfl, rfl⟩ := ran
    exact expr_walked _ e formed (enters.stands formed rfl).sees ran
  | .varDecl name initializer, _, _, _, _, formed, enters, ran => by
    simp only [stmt, run_bind_ok, run_pure_ok] at ran
    obtain ⟨_, s₁, declared, _, s₂, ran, _, _, defined, rfl, rfl⟩ := ran
    cases enters with
    | inside plain => cases plain
    | @listed seat earlier outer _ rooted stands =>
      -- the one place where a name is declared but not ready
      have sees := stands.declared rooted declared
      have context : Place.context (.item seat earlier [name.lexeme] :: outer)
        = Place.context (.initializer name :: .item seat earlier [name.lexeme] :: outer) := rfl
      simp only [Stmt.introduces] at ran ⊢
      rw [context] at ran
      have walked := expr?_walked formed.2.2 sees ran
      have ready := walked.noted.trans (define_noted defined)
      rw [List.append_nil, List.append_nil] at ready
      exact .cons (declare_noted rooted stands declared [name.lexeme]) rfl rfl trivial
        ⟨ready, walked.linked⟩
  | .block statements, place, _, _, _, formed, enters, ran => by
    simp only [stmt, run_bind_ok, run_pure_ok] at ran
    obtain ⟨_, _, ran, rfl, rfl⟩ := ran
    have stands := enters.stands formed rfl
    refine .within ran fun s₁ inside => ?_
    exact stmts_walked statements formed nofun
      (stands.opened (.item .block [] []) rfl holds_empty fun _ => rfl) inside
  | .ifElse condition thenBranch none, _, _, _, _, formed, enters, ran => by
    simp only [stmt, run_bind_ok, run_pure_ok] at ran
    obtain ⟨_, _, ranCondition, _, _, ranThen, rfl, rfl⟩ := ran
    have stands := enters.stands formed rfl
    exact (expr_walked _ condition formed.1 stands.sees ranCondition).append
      (stmt_walked thenBranch formed.2.2
        (.inside formed.2.1 (stands.afterExpr ranCondition)) ranThen)
  | .ifElse condition thenBranch (some elseBranch), _, _, _, _, formed, enters, ran => by
    simp only [stmt, run_bind_ok, run_pure_ok] at ran
    obtain ⟨_, _, ranCondition, _, _, ranThen, _, _, ranElse, rfl, rfl⟩ := ran
    have stands := enters.stands formed rfl
    obtain ⟨formedCondition, thenPlain, thenFormed, elsePlain, elseFormed⟩ := formed
    have after := stands.afterExpr ranCondition
    refine (expr_walked _ condition formedCondition stands.sees ranCondition).append ?_
    refine (stmt_walked thenBranch thenFormed (.inside thenPlain after) ranThen).append ?_
    exact stmt_walked elseBranch elseFormed
      (.inside elsePlain (after.afterPlain thenFormed thenPlain ranThen)) ranElse
  | .loop condition body, place, _, _, _, formed, enters, ran => by
    simp only [stmt, run_bind_ok, run_pure_ok] at ran
    obtain ⟨_, s₁, ranCondition, _, _, ranBody, rfl, rfl⟩ := ran
    have stands := enters.stands formed rfl
    have after := stands.afterExpr ranCondition
    have inLoop : Stands globals (.loop :: place) s₁ := ⟨after.scopes, after.top, fun _ => rfl⟩
    exact (expr_walked _ condition formed.1 stands.sees ranCondition).append
      (stmt_walked body formed.2.2 (.inside formed.2.1 inLoop) ranBody)
  | .funDecl decl, _, _, _, _, formed, enters, ran => by
    simp only [stmt, run_bind_ok, run_pure_ok] at ran
    obtain ⟨_, s₁, declared, _, s₂, defined, decl', _, ran, rfl, rfl⟩ := ran
    cases enters with
    | inside plain => cases plain
    | @listed seat earlier outer _ rooted stands =>
      have here := stands.named rooted declared defined rfl
      exact .cons (named_noted rooted stands declared defined) rfl rfl trivial
        (function_walked decl false formed here ran)
  | .classDecl name none members, _, _, _, _, formed, enters, ran => by
    simp only [stmt, run_bind_ok, run_pure_ok] at ran
    obtain ⟨_, s₁, declared, _, s₂, defined, _, _, ran, rfl, rfl⟩ := ran
    cases enters with
    | inside plain => cases plain
    | @listed seat earlier outer _ rooted stands =>
      have here := stands.named rooted declared defined rfl
      refine .cons (named_noted rooted stands declared defined) rfl rfl trivial
        (.within ran fun s₃ inside => ?_)
      exact methods_walked members formed.2.2
        (here.opened (.methods false) rfl (holds_single "this") fun _ => rfl) inside
  | .classDecl name (some parent) members, _, _, _, _, formed, enters, ran => by
    simp only [stmt, run_bind_ok, run_pure_ok] at ran
    obtain ⟨_, s₁, declared, _, s₂, defined, _, s₃, ranParent, _, _, ran, rfl, rfl⟩ := ran
    cases enters with
    | inside plain => cases plain
    | @listed seat earlier outer _ rooted stands =>
      have here := stands.named rooted declared defined rfl
      have named := named_noted rooted stands declared defined
      simp only [superclass, run_bind_ok, run_pure_ok] at ranParent
      obtain ⟨_, s₄, reported, _, _, ranValue, rfl, rfl⟩ := ranParent
      have noted := named.trans (reportIf_noted reported)
      have after : Stands globals _ s₄ := here.of_same (reportIf_effect reported).scopes
        fun _ => .of_eq (LeavesGlobals.reportIf _ _ _ _ _ _ reported)
      obtain ⟨-, -, ⟨-, -, hops, value⟩, formedMembers⟩ := formed
      rw [value] at ranValue
      have walked := var_walked after.sees ranValue
      rw [← value] at walked
      refine .cons noted rfl rfl trivial (walked.append ?_)
      refine .within ran fun _ outside => .within outside fun _ inside => ?_
      exact methods_walked members formedMembers (after.afterExpr ranValue).openedTwice inside
  | .ret keyword value, place, _, _, _, formed, enters, ran => by
    simp only [stmt, run_bind_ok, run_pure_ok] at ran
    obtain ⟨_, s₁, atTop, _, s₂, fromInit, _, _, ran, rfl, rfl⟩ := ran
    have stands := enters.stands formed rfl
    have noted := (reportIf_noted atTop).trans (reportIf_noted fromInit)
    rw [Place.isNone_function, Place.function_eq_initializer, List.append_nil] at noted
    have first := stands.of_same (reportIf_effect atTop).scopes
      fun _ => .of_eq (LeavesGlobals.reportIf _ _ _ _ _ _ atTop)
    have after := first.of_same (reportIf_effect fromInit).scopes
      fun _ => .of_eq (LeavesGlobals.reportIf _ _ _ _ _ _ fromInit)
    exact .cons noted rfl rfl trivial (expr?_walked formed.2.2 after.sees ran)
  | .brk keyword, _, _, _, _, _, _, ran | .cont keyword, _, _, _, _, _, _, ran => by
    simp only [stmt, run_bind_ok, run_pure_ok] at ran
    obtain ⟨_, _, reported, rfl, rfl⟩ := ran
    exact .cons (reportIf_noted reported) rfl rfl trivial (.refl _)
  | .bare e, _, _, _, _, formed, _, _ => formed.elim
  | .misfit what, _, _, _, _, formed, _, _ => formed.elim
termination_by structural st => st

/-- Statements in order are walked in order.  Each one stands behind the names that those before it
introduced, so the induction moves the place along. -/
theorem stmts_walked : ∀ (sts : List Stmt) {seat : Seat} {earlier : List String} {outer : Place}
    {sts' : List Stmt} {s s' : State}, Stmt.AllFormed Token.Spelled sts →
      (seat = .program → outer = []) → Stands globals (.item seat earlier [] :: outer) s →
        (stmts (Place.context (.item seat earlier [] :: outer)) sts).run s = .ok sts' s' →
          Walked globals (Stmt.allSpots seat earlier outer sts)
            (Stmt.allSpots seat earlier outer sts') s s'
  | [], _, _, _, _, s, _, _, _, _, ran => by
    cases ran
    exact .refl s
  | st :: rest, seat, earlier, outer, _, s, s', formed, rooted, stands, ran => by
    simp only [stmts, run_bind_ok, run_pure_ok] at ran
    obtain ⟨st', s₁, ranFirst, _, _, ranRest, rfl, rfl⟩ := ran
    have after := stands.afterItem rooted ranFirst
    have same := (stmt_effect _ st ranFirst).1
    rw [Place.context_item _ _ _ earlier st.introduces] at ranFirst
    rw [Place.context_item _ _ _ (earlier ++ st.introduces) []] at ranRest
    have first := stmt_walked st formed.1 (.listed rooted stands) ranFirst
    have others := stmts_walked rest formed.2 rooted after ranRest
    rw [Stmt.allSpots, Stmt.allSpots, same]
    exact first.append others
termination_by structural sts => sts

/-- A function is walked inside a scope that begins with its parameters.  The names in its body are
introduced in that same scope. -/
theorem function_walked : ∀ (decl : FunDecl) (isMethod : Bool) {place : Place} {decl' : FunDecl}
    {s s' : State}, decl.Formed Token.Spelled → Stands globals place s →
      (function place.context (if isMethod then methodKind decl.name else .function) decl).run s
        = .ok decl' s' →
        Walked globals (decl.spots isMethod place) (decl'.spots isMethod place) s s'
  | ⟨name, params, body⟩, isMethod, place, _, s, s', formed, stands, ran => by
    simp only [function, run_bind_ok, run_pure_ok] at ran
    obtain ⟨body', _, ran, rfl, rfl⟩ := ran
    have opened : Stands globals (.item (.body isMethod name) [] [] :: place) (s.opened []) :=
      stands.opened (.item (.body isMethod name) [] []) rfl holds_empty fun _ => rfl
    refine .within ran fun s₁ inside => ?_
    obtain ⟨_, s₂, declared, ranBody⟩ := run_bind_ok.mp inside
    have inBody : Seat.body isMethod name ≠ .program := nofun
    obtain ⟨walked, after⟩ := declareAll_walked inBody params opened declared
    exact walked.append (stmts_walked body formed.2.2.2 nofun after ranBody)
termination_by structural decl => decl

/-- Methods are walked in order, each as a function of the kind its name gives it.  None of them
introduces a name into the scope of the class. -/
theorem methods_walked : ∀ (decls : List FunDecl) {place : Place} {decls' : List FunDecl}
    {s s' : State}, FunDecl.AllFormed Token.Spelled decls → Stands globals place s →
      (methods place.context decls).run s = .ok decls' s' →
        Walked globals (FunDecl.allSpots place decls) (FunDecl.allSpots place decls') s s'
  | [], _, _, s, _, _, _, ran => by
    cases ran
    exact .refl s
  | decl :: rest, place, _, _, _, formed, stands, ran => by
    simp only [methods, run_bind_ok, run_pure_ok] at ran
    obtain ⟨_, _, ranFirst, _, _, ranRest, rfl, rfl⟩ := ran
    exact (function_walked decl true formed.1 stands ranFirst).append
      (methods_walked rest formed.2 (stands.afterFunction ranFirst) ranRest)
termination_by structural decls => decls

end

end Scope
end Arbor
