import Arbor.Proofs.Program.Formed
import Arbor.Proofs.Program.Unresolved
import Arbor.Tree.Program

/-!
# Storing and loading

A program that is stored as a tree and loaded again is the program as it was before resolution, and a
tree whose nodes have all their parts survives being stored as JSON.  Nothing that a program consists
of is lost or changed: kinds of nodes and tokens, spellings, literals and lines all come back.

The loader is more liberal than it need be for this: it takes members in any order and ignores those
it does not know.  What counts here is that the members of a stored node have distinct names, none of
which is taken by the tag of a node or of a token.

## Main statements

* `Tree.ofJson_toJson`: a complete tree is loaded as it was stored.
* `Program.ofTree_toTree`: so is a well-formed program, up to distances.
-/

namespace Arbor

/-! ### Kinds by name -/

/-- A kind of node is found by its name. -/
theorem NodeKind.ofName?_name (kind : NodeKind) : NodeKind.ofName? kind.name = some kind := by
  cases kind <;> decide +kernel

/-- The fields of a kind have distinct names, and none of them is that of a tag. -/
theorem NodeKind.fields_distinct (kind : NodeKind) :
    kind.fields.Nodup ∧ "type" ∉ kind.fields ∧ "__type__" ∉ kind.fields := by
  cases kind <;> decide +kernel

/-- A kind of token that a text can produce is found by its name. -/
theorem Token.Kind.ofName_name {kind : Token.Kind} (known : kind ∈ Token.Kind.all) :
    Token.Kind.ofName kind.name = kind := by
  revert kind
  decide +kernel

/-! ### Trees as JSON -/

mutual

/-- Every node of a tree has as many parts as its kind has fields. -/
def Tree.Complete : Tree → Prop
  | .list items => Tree.AllComplete items
  | .node kind parts => parts.length = kind.fields.length ∧ Tree.AllComplete parts
  | _ => True

/-- All trees of a list are complete. -/
def Tree.AllComplete : List Tree → Prop
  | [] => True
  | t :: rest => t.Complete ∧ Tree.AllComplete rest

end

namespace Tree

/-- A member that is not among the names is not found. -/
theorem member?_zip_eq_none {name : String} : ∀ {names : List String} (values : List Json),
    name ∉ names → Json.member? name (names.zip values) = none
  | [], _, _ => rfl
  | _ :: _, [], _ => rfl
  | key :: names, _ :: values, absent => by
    have apart : ¬ key = name := fun same => absent (same ▸ List.mem_cons_self)
    have later := member?_zip_eq_none values fun mem => absent (List.mem_cons_of_mem _ mem)
    simp only [List.zip_cons_cons, Json.member?, if_neg apart, later]

/-- A stored node is no token, and its kind is found. -/
theorem kindOf_stored (kind : NodeKind) (values : List Json) :
    isToken (("type", .str kind.name) :: kind.fields.zip values) = false ∧
      kindOf (("type", .str kind.name) :: kind.fields.zip values) = .ok kind := by
  obtain ⟨-, -, notTag⟩ := kind.fields_distinct
  constructor
  · have absent := member?_zip_eq_none values notTag
    have apart : ¬ "type" = "__type__" := by decide
    simp only [isToken, Json.member?, if_neg apart, absent]
  · simp only [kindOf, Json.member?, if_true, Option.getD_some, kindNamed, kind.ofName?_name]

/-- The members of an object are loaded one by one, under their names. -/
theorem membersOfJson_zip : ∀ (names : List String) (values : List Json),
    membersOfJson (names.zip values) = names.zip (values.map ofJson)
  | [], _ => rfl
  | _ :: _, [] => rfl
  | name :: names, value :: values => by
    simp only [List.zip_cons_cons, membersOfJson, List.map_cons, membersOfJson_zip names values]

/-- A member is found behind others if none of them has its name. -/
theorem lookup_append_cons {α : Type} {name : String} {value : α} {rest : List (String × α)} :
    ∀ before : List (String × α), name ∉ before.map Prod.fst →
      (before ++ (name, value) :: rest).lookup name = some value
  | [], _ => by simp
  | (key, other) :: before, absent => by
    rw [List.map_cons, List.mem_cons, not_or] at absent
    rw [List.cons_append, List.lookup_cons, beq_eq_false_iff_ne.mpr absent.1]
    exact lookup_append_cons before absent.2

/-- What stands under distinct names is gathered in their order, behind anything that has other
names.  The induction moves the names over one by one, so what is in front grows. -/
theorem gather_append_zip : ∀ (names : List String) (parts : List Tree)
    (before : List (String × Except TreeError Tree)), parts.length = names.length → names.Nodup →
    (∀ name ∈ names, name ∉ before.map Prod.fst) →
    gather (before ++ names.zip (parts.map .ok)) names = .ok (parts.map some)
  | [], [], _, _, _, _ => rfl
  | [], _ :: _, _, same, _, _ => nomatch same
  | _ :: _, [], _, same, _, _ => nomatch same
  | name :: names, part :: parts, before, same, distinct, apart => by
    have here := apart name List.mem_cons_self
    have others : ∀ other ∈ names, other ∉ (before ++ [(name, Except.ok part)]).map Prod.fst := by
      intro other mem taken
      rw [List.map_append, List.mem_append] at taken
      rcases taken with earlier | last
      · exact apart other (List.mem_cons_of_mem _ mem) earlier
      · cases List.mem_singleton.mp last
        exact (List.nodup_cons.mp distinct).1 mem
    have later := gather_append_zip names parts (before ++ [(name, .ok part)])
      (Nat.succ.inj same) distinct.of_cons others
    rw [List.append_assoc, List.singleton_append] at later
    rw [List.map_cons, List.zip_cons_cons, gather, lookup_append_cons before here, later]
    rfl

/-- A node is assembled of its parts.  Its fields have names of their own, none of which says what
kind of object it is, so each part is found under its name. -/
theorem assemble_stored {kind : NodeKind} {parts : List Tree} {values : List Json}
    (size : parts.length = kind.fields.length) (loaded : values.map ofJson = parts.map .ok) :
    assemble (("type", .str kind.name) :: kind.fields.zip values)
      (membersOfJson (("type", .str kind.name) :: kind.fields.zip values)) = .ok (.node kind parts) := by
  obtain ⟨distinct, notKind, -⟩ := kind.fields_distinct
  obtain ⟨noToken, known⟩ := kindOf_stored kind values
  have apart : ∀ name ∈ kind.fields, name ∉ ["type"] := by
    intro name mem here
    cases List.mem_singleton.mp here
    exact notKind mem
  have gathered := gather_append_zip kind.fields parts [("type", ofJson (.str kind.name))] size
    distinct apart
  have members : membersOfJson (("type", .str kind.name) :: kind.fields.zip values)
      = [("type", ofJson (.str kind.name))] ++ kind.fields.zip (parts.map .ok) := by
    rw [membersOfJson, membersOfJson_zip, loaded]
    rfl
  have all : (parts.map some).all Option.isSome = true := by simp
  have rest : (parts.map some).filterMap id = parts := by simp
  unfold assemble
  rw [noToken, known, members, if_neg Bool.false_ne_true]
  change (gather _ kind.fields >>= fun parts => if parts.all Option.isSome = true then
    pure (node kind (parts.filterMap id)) else throw .missingField : Except TreeError Tree) = _
  rw [gathered]
  change (if (parts.map some).all Option.isSome = true then
    pure (node kind ((parts.map some).filterMap id)) else throw .missingField :
      Except TreeError Tree) = _
  rw [if_pos all, rest]
  rfl

mutual

/-- A tree with all its parts is loaded as it was stored.  A tree that lacked a part would be stored
without that field, and not be loaded. -/
theorem ofJson_toJson : ∀ t : Tree, t.Complete → ofJson t.toJson = .ok t
  | .null, _ => rfl
  | .bool _, _ => rfl
  | .number _, _ => rfl
  | .text _, _ => rfl
  | .list items, complete => by
    have loaded : listOfJson (listToJson items) = .ok items := (listOfJson_toJson items complete).1
    rw [toJson, ofJson, loaded]
    rfl
  | .token t, _ => by
    cases t
    rfl
  | .node kind parts, complete => by
    rw [toJson, ofJson]
    exact assemble_stored complete.1 (listOfJson_toJson parts complete.2).2
termination_by structural t => t

/-- Lists of complete trees are loaded as they were stored, and so is each of their items. -/
theorem listOfJson_toJson : ∀ ts : List Tree, AllComplete ts →
    listOfJson (listToJson ts) = .ok ts ∧ (listToJson ts).map ofJson = ts.map .ok
  | [], _ => ⟨rfl, rfl⟩
  | t :: rest, complete => by
    have first := ofJson_toJson t complete.1
    obtain ⟨later, each⟩ := listOfJson_toJson rest complete.2
    constructor
    · rw [listToJson, listOfJson, first, later]
      rfl
    · rw [listToJson, List.map_cons, List.map_cons, first, each]
termination_by structural ts => ts

end

end Tree

/-! ### What programs store is complete -/

mutual

/-- An expression is stored with all parts that its node asks for.  The number of parts is that of
the fields in every case, and the parts are complete by induction. -/
theorem Expr.complete_toTree : ∀ e : Expr, e.toTree.Complete
  | .literal value => by cases value <;> exact ⟨rfl, trivial, trivial⟩
  | .grouping inner => ⟨rfl, inner.complete_toTree, trivial⟩
  | .var _ _ => ⟨rfl, trivial, trivial⟩
  | .assign _ value _ => ⟨rfl, trivial, value.complete_toTree, trivial⟩
  | .unary _ right => ⟨rfl, trivial, right.complete_toTree, trivial⟩
  | .binary left _ right => ⟨rfl, left.complete_toTree, trivial, right.complete_toTree, trivial⟩
  | .logical left _ right => ⟨rfl, left.complete_toTree, trivial, right.complete_toTree, trivial⟩
  | .call callee _ arguments =>
    ⟨rfl, callee.complete_toTree, trivial, Expr.complete_listToTree arguments, trivial⟩
  | .getField object _ => ⟨rfl, object.complete_toTree, trivial, trivial⟩
  | .setField object _ value =>
    ⟨rfl, object.complete_toTree, trivial, value.complete_toTree, trivial⟩
  | .this _ _ => ⟨rfl, trivial, trivial⟩
  | .super _ _ _ => ⟨rfl, trivial, trivial, trivial⟩
  | .misfit _ => trivial
termination_by structural e => e

theorem Expr.complete_listToTree : ∀ es : List Expr, Tree.AllComplete (Expr.listToTree es)
  | [] => trivial
  | e :: rest => ⟨e.complete_toTree, Expr.complete_listToTree rest⟩
termination_by structural es => es

end

/-- One that is left out is stored as nothing, which is complete. -/
theorem Expr.complete_optionToTree : ∀ e? : Option Expr, (Expr.optionToTree e?).Complete
  | none => trivial
  | some e => e.complete_toTree

/-- Tokens are stored as themselves. -/
theorem Token.complete_map_toTree : ∀ ts : List Token, Tree.AllComplete (ts.map Token.toTree)
  | [] => trivial
  | _ :: rest => ⟨trivial, Token.complete_map_toTree rest⟩

mutual

/-- A statement is stored with all parts that its node asks for, and so are the statements inside
it.  A part that may be left out is stored as nothing, and so takes its place. -/
theorem Stmt.complete_toTree : ∀ s : Stmt, s.toTree.Complete
  | .expr e | .print e => ⟨rfl, e.complete_toTree, trivial⟩
  | .varDecl _ initializer => ⟨rfl, trivial, Expr.complete_optionToTree initializer, trivial⟩
  | .block statements => ⟨rfl, Stmt.complete_listToTree statements, trivial⟩
  | .ifElse condition thenBranch none =>
    ⟨rfl, condition.complete_toTree, thenBranch.complete_toTree, trivial, trivial⟩
  | .ifElse condition thenBranch (some elseBranch) =>
    ⟨rfl, condition.complete_toTree, thenBranch.complete_toTree, elseBranch.complete_toTree, trivial⟩
  | .loop condition body => ⟨rfl, condition.complete_toTree, body.complete_toTree, trivial⟩
  | .funDecl decl => decl.complete_toTree
  | .classDecl _ _ methods =>
    ⟨rfl, trivial, Expr.complete_optionToTree _, FunDecl.complete_listToTree methods, trivial⟩
  | .ret _ value => ⟨rfl, trivial, Expr.complete_optionToTree value, trivial⟩
  | .brk _ | .cont _ => ⟨rfl, trivial, trivial⟩
  | .bare e => e.complete_toTree
  | .misfit _ => trivial
termination_by structural s => s

theorem Stmt.complete_listToTree : ∀ ss : List Stmt, Tree.AllComplete (Stmt.listToTree ss)
  | [] => trivial
  | s :: rest => ⟨s.complete_toTree, Stmt.complete_listToTree rest⟩
termination_by structural ss => ss

/-- So is a function, with its parameters as a list of tokens. -/
theorem FunDecl.complete_toTree : ∀ decl : FunDecl, decl.toTree.Complete
  | ⟨_, params, body⟩ =>
    ⟨rfl, trivial, Token.complete_map_toTree params, Stmt.complete_listToTree body, trivial⟩
termination_by structural decl => decl

theorem FunDecl.complete_listToTree : ∀ decls : List FunDecl,
    Tree.AllComplete (FunDecl.listToTree decls)
  | [] => trivial
  | decl :: rest => ⟨decl.complete_toTree, FunDecl.complete_listToTree rest⟩
termination_by structural decls => decls

end

/-- A stored program is loaded as the tree it was stored as. -/
theorem Program.ofJson_toTree (p : Program) : Tree.ofJson p.toTree.toJson = .ok p.toTree :=
  Tree.ofJson_toJson _ ⟨rfl, Stmt.complete_listToTree p.body, trivial⟩

/-! ### Trees as programs -/

/-- Constants survive being stored as JSON, where numbers are always written as doubles. -/
theorem Constant.ofJson_toJson (c : Constant) : Constant.ofJson c.toJson = c := by
  cases c <;> rfl

/-- They survive being stored as trees as well. -/
theorem Constant.ofTree?_toTree (c : Constant) : Constant.ofTree? c.toTree = some c := by
  cases c <;> rfl

/-- A token of a kind that a text can produce is loaded as it was stored. -/
theorem Token.ofTree?_toTree {t : Token} {kind : Token.Kind} (is : t.kind = kind)
    (known : kind ∈ Token.Kind.all) : Token.ofTree? t.toTree = some t := by
  obtain ⟨_, lexeme, literal, line⟩ := t
  cases is
  simp only [Token.toTree, Token.ofTree?, Tree.scalarText?, Token.Kind.ofName_name known,
    Constant.ofJson_toJson]

/-- A list of parameters is loaded as it was stored, given that all of them are identifiers. -/
theorem Token.listOfTree_map_toTree {ts : List Token}
    (identifiers : ∀ t ∈ ts, t.kind = .identifier) :
    Token.listOfTree (.list (ts.map Token.toTree)) = .ok ts := by
  have each : (ts.map Token.toTree).mapM Token.ofTree? = some ts := by
    induction ts with
    | nil => rfl
    | cons t rest ih =>
      have first := Token.ofTree?_toTree (identifiers t List.mem_cons_self) (by decide)
      have later := ih fun other mem => identifiers other (List.mem_cons_of_mem _ mem)
      rw [List.map_cons, List.mapM_cons, first, later]
      rfl
  rw [Token.listOfTree, each]

section Formed

variable {token : Token → Prop}

/-- Operators are among the kinds that are looked for by name. -/
theorem Token.Kind.mem_all_of_isBinary {kind : Token.Kind} (binary : kind.isBinary = true) :
    kind ∈ Token.Kind.all := by
  cases kind <;> first | decide | cases binary

mutual

/-- A well-formed expression is loaded as it was before resolution.  Distances are not stored, and
the kind of each token is one that is stored by its name. -/
theorem Expr.toExpr_toTree : ∀ e : Expr, e.Formed token → e.toTree.toExpr = e.unresolved
  | .literal value, _ => by
    simp only [Expr.toTree, Tree.toExpr, Constant.ofTree?_toTree, Expr.unresolved]
  | .grouping inner, formed => by
    simp only [Expr.toTree, Tree.toExpr, inner.toExpr_toTree formed, Expr.unresolved]
  | .var name _, formed => by
    simp only [Expr.toTree, Tree.toExpr, Tree.withToken,
      Token.ofTree?_toTree formed.1 (by decide), Expr.unresolved]
  | .assign name value _, formed => by
    simp only [Expr.toTree, Tree.toExpr, Tree.withToken,
      Token.ofTree?_toTree formed.1 (by decide), value.toExpr_toTree formed.2.2, Expr.unresolved]
  | .unary operator right, formed => by
    have known : operator.kind ∈ Token.Kind.all := by
      rcases formed.1 with is | is <;> rw [is] <;> decide
    simp only [Expr.toTree, Tree.toExpr, Tree.withToken, Token.ofTree?_toTree rfl known,
      right.toExpr_toTree formed.2.2, Expr.unresolved]
  | .binary left operator right, formed => by
    have known := Token.Kind.mem_all_of_isBinary formed.1
    simp only [Expr.toTree, Tree.toExpr, Tree.withToken, Token.ofTree?_toTree rfl known,
      left.toExpr_toTree formed.2.2.1, right.toExpr_toTree formed.2.2.2, Expr.unresolved]
  | .logical left operator right, formed => by
    have known : operator.kind ∈ Token.Kind.all := by
      rcases formed.1 with is | is <;> rw [is] <;> decide
    simp only [Expr.toTree, Tree.toExpr, Tree.withToken, Token.ofTree?_toTree rfl known,
      left.toExpr_toTree formed.2.2.1, right.toExpr_toTree formed.2.2.2, Expr.unresolved]
  | .call callee paren arguments, formed => by
    simp only [Expr.toTree, Tree.toExpr, Tree.withToken,
      Token.ofTree?_toTree formed.1 (by decide), callee.toExpr_toTree formed.2.2.1,
      Expr.toExprs_listToTree arguments formed.2.2.2, Expr.unresolved]
  | .getField object name, formed => by
    simp only [Expr.toTree, Tree.toExpr, Tree.withToken,
      Token.ofTree?_toTree formed.1 (by decide), object.toExpr_toTree formed.2.2, Expr.unresolved]
  | .setField object name value, formed => by
    simp only [Expr.toTree, Tree.toExpr, Tree.withToken,
      Token.ofTree?_toTree formed.1 (by decide), object.toExpr_toTree formed.2.2.1,
      value.toExpr_toTree formed.2.2.2, Expr.unresolved]
  | .this keyword _, formed => by
    simp only [Expr.toTree, Tree.toExpr, Tree.withToken,
      Token.ofTree?_toTree formed.1 (by decide), Expr.unresolved]
  | .super keyword method _, formed => by
    simp only [Expr.toTree, Tree.toExpr, Tree.withToken,
      Token.ofTree?_toTree formed.1 (by decide), Token.ofTree?_toTree formed.2.2.1 (by decide),
      Expr.unresolved]
  | .misfit _, formed => formed.elim
termination_by structural e => e

/-- So are expressions in order. -/
theorem Expr.toExprs_listToTree : ∀ es : List Expr, Expr.AllFormed token es →
    Tree.toExprs (Expr.listToTree es) = Expr.allUnresolved es
  | [], _ => rfl
  | e :: rest, formed => by
    simp only [Expr.listToTree, Tree.toExprs, e.toExpr_toTree formed.1,
      Expr.toExprs_listToTree rest formed.2, Expr.allUnresolved]
termination_by structural es => es

end

/-- Well-formed expressions are stored as nodes. -/
theorem Expr.exists_toTree_eq {e : Expr} (formed : e.Formed token) :
    ∃ kind parts, e.toTree = .node kind parts := by
  cases e with
  | misfit => exact formed.elim
  | _ => exact ⟨_, _, rfl⟩

/-- So is one that may be left out. -/
theorem Expr.toExpr?_optionToTree {e? : Option Expr} (formed : Expr.OptionFormed token e?) :
    (Expr.optionToTree e?).toExpr? = e?.map Expr.unresolved := by
  cases e? with
  | none => rfl
  | some e =>
    obtain ⟨kind, parts, node⟩ := e.exists_toTree_eq formed
    have loaded := e.toExpr_toTree formed
    rw [node] at loaded
    rw [Expr.optionToTree, node]
    exact congrArg some loaded

/-- A superclass is loaded by the name it is blamed by.  Only the variable is stored, and the name
is that of the variable, as in every superclass that is well-formed. -/
theorem Superclass.toSuperclass_toTree {parent : Superclass} (formed : parent.Formed token) :
    (Expr.optionToTree (some parent.value)).toSuperclass = .ok (some parent.unresolved) := by
  obtain ⟨name, value⟩ := parent
  obtain ⟨kind, -, hops, same⟩ := formed
  dsimp only at kind same
  subst same
  have known := Token.ofTree?_toTree kind (by decide)
  have named : (Tree.node .var [name.toTree]).nameToken? = some name := known
  have loaded : (Tree.node .var [name.toTree]).toExpr = .var name none := by
    rw [Tree.toExpr, Tree.withToken, known]
  have given : Expr.optionToTree (some (.var name hops)) = .node .var [name.toTree] := rfl
  rw [given, Tree.toSuperclass]
  · rw [named, loaded]
    rfl
  · exact nofun

/-- A well-formed statement is stored as a node of a kind that is loaded as a statement. -/
theorem Stmt.exists_toTree_eq {s : Stmt} (formed : s.Formed token) :
    ∃ kind parts, s.toTree = .node kind parts ∧ Tree.isStmtKind kind = true := by
  cases s with
  | ifElse condition thenBranch elseBranch => cases elseBranch <;> exact ⟨_, _, rfl, rfl⟩
  | funDecl decl =>
    cases decl
    exact ⟨_, _, rfl, rfl⟩
  | bare | misfit => exact formed.elim
  | _ => exact ⟨_, _, rfl, rfl⟩

mutual

/-- A well-formed statement is loaded as it was before resolution.  An `else` branch is told from a
missing one by being a node, which every well-formed statement is stored as. -/
theorem Stmt.toStmt_toTree : ∀ s : Stmt, s.Formed token → s.toTree.toStmt = s.unresolved
  | .expr e, formed => by
    simp only [Stmt.toTree, Tree.toStmt, e.toExpr_toTree formed, Stmt.unresolved]
  | .print e, formed => by
    simp only [Stmt.toTree, Tree.toStmt, e.toExpr_toTree formed, Stmt.unresolved]
  | .varDecl name initializer, formed => by
    simp only [Stmt.toTree, Tree.toStmt, Tree.stmtWithToken,
      Token.ofTree?_toTree formed.1 (by decide), Expr.toExpr?_optionToTree formed.2.2,
      Stmt.unresolved]
  | .block statements, formed => by
    simp only [Stmt.toTree, Tree.toStmt, Stmt.toStmts_listToTree statements formed, Stmt.unresolved]
  | .ifElse condition thenBranch none, formed => by
    simp only [Stmt.toTree, Tree.toStmt, condition.toExpr_toTree formed.1,
      thenBranch.toStmt_toTree formed.2.2, Stmt.unresolved]
  | .ifElse condition thenBranch (some elseBranch), formed => by
    obtain ⟨kind, parts, node, -⟩ := Stmt.exists_toTree_eq formed.2.2.2.2
    have loaded := elseBranch.toStmt_toTree formed.2.2.2.2
    rw [node] at loaded
    simp only [Stmt.toTree, node, Tree.toStmt, condition.toExpr_toTree formed.1,
      thenBranch.toStmt_toTree formed.2.2.1, loaded, Stmt.unresolved]
  | .loop condition body, formed => by
    simp only [Stmt.toTree, Tree.toStmt, condition.toExpr_toTree formed.1,
      body.toStmt_toTree formed.2.2, Stmt.unresolved]
  | .funDecl ⟨name, params, body⟩, formed => by
    have identifiers : ∀ param ∈ params, param.kind = .identifier :=
      fun param mem => (formed.2.2.1 param mem).1
    simp only [Stmt.toTree, FunDecl.toTree, Tree.toStmt, Tree.stmtWithToken, Tree.funDeclOf,
      Token.ofTree?_toTree formed.1 (by decide), Token.listOfTree_map_toTree identifiers,
      Stmt.toStmts_listToTree body formed.2.2.2, Stmt.unresolved, FunDecl.unresolved]
  | .classDecl name none methods, formed => by
    simp only [Stmt.toTree, Option.map_none, Expr.optionToTree, Tree.toStmt, Tree.classDeclOf,
      Tree.toSuperclass, Tree.stmtWithToken, Token.ofTree?_toTree formed.1 (by decide),
      FunDecl.toMethods_listToTree methods formed.2.2, Stmt.unresolved]
  | .classDecl name (some parent) methods, formed => by
    simp only [Stmt.toTree, Option.map_some, Tree.toStmt, Tree.classDeclOf,
      Superclass.toSuperclass_toTree formed.2.2.1, Tree.stmtWithToken,
      Token.ofTree?_toTree formed.1 (by decide),
      FunDecl.toMethods_listToTree methods formed.2.2.2, Stmt.unresolved]
  | .ret keyword value, formed => by
    simp only [Stmt.toTree, Tree.toStmt, Tree.stmtWithToken,
      Token.ofTree?_toTree formed.1 (by decide), Expr.toExpr?_optionToTree formed.2.2,
      Stmt.unresolved]
  | .brk keyword, formed => by
    simp only [Stmt.toTree, Tree.toStmt, Tree.stmtWithToken,
      Token.ofTree?_toTree formed.1 (by decide), Stmt.unresolved]
  | .cont keyword, formed => by
    simp only [Stmt.toTree, Tree.toStmt, Tree.stmtWithToken,
      Token.ofTree?_toTree formed.1 (by decide), Stmt.unresolved]
  | .bare _, formed => formed.elim
  | .misfit _, formed => formed.elim
termination_by structural s => s

theorem Stmt.toStmts_listToTree : ∀ ss : List Stmt, Stmt.AllFormed token ss →
    Tree.toStmts (Stmt.listToTree ss) = Stmt.allUnresolved ss
  | [], _ => rfl
  | s :: rest, formed => by
    obtain ⟨kind, parts, node, isStmt⟩ := Stmt.exists_toTree_eq formed.1
    have stands : s.toTree.isStmt = true := by rw [node]; exact isStmt
    simp only [Stmt.listToTree, Tree.toStmts, stands, if_true, s.toStmt_toTree formed.1,
      Stmt.toStmts_listToTree rest formed.2, Stmt.allUnresolved]
termination_by structural ss => ss

/-- So is a function, where a method is expected. -/
theorem FunDecl.toMethod_toTree : ∀ decl : FunDecl, decl.Formed token →
    decl.toTree.toMethod = decl.unresolved
  | ⟨name, params, body⟩, formed => by
    have identifiers : ∀ param ∈ params, param.kind = .identifier :=
      fun param mem => (formed.2.2.1 param mem).1
    simp only [FunDecl.toTree, Tree.toMethod, Tree.funDeclOf,
      Token.ofTree?_toTree formed.1 (by decide), Token.listOfTree_map_toTree identifiers,
      Stmt.toStmts_listToTree body formed.2.2.2, FunDecl.unresolved]
termination_by structural decl => decl

theorem FunDecl.toMethods_listToTree : ∀ decls : List FunDecl, FunDecl.AllFormed token decls →
    Tree.toMethods (FunDecl.listToTree decls) = FunDecl.allUnresolved decls
  | [], _ => rfl
  | decl :: rest, formed => by
    simp only [FunDecl.listToTree, Tree.toMethods, decl.toMethod_toTree formed.1,
      FunDecl.toMethods_listToTree rest formed.2, FunDecl.allUnresolved]
termination_by structural decls => decls

end

/-- A well-formed program is loaded as it was before resolution. -/
theorem Program.ofTree_toTree {p : Program} (formed : Stmt.AllFormed token p.body) :
    Program.ofTree p.toTree = .ok p.unresolved := by
  rw [Program.toTree, Program.ofTree, Program.bodyOf, Stmt.toStmts_listToTree p.body formed]
  rfl

end Formed

end Arbor
