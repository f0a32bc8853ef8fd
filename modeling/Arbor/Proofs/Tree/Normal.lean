import Arbor.Proofs.Grammar.Concatenation
import Arbor.Proofs.Session.Moments
import Arbor.Proofs.Tree.RoundTrip

/-!
# The normal form of stored trees

A tree can be stored in many ways: with the members of an object in any order and further ones among
them, with integers for numbers, with the line of a token as a text.  Loading such a value and storing
the tree again gives its normal form.  `Json.Normal` says what that is without loading anything, one
rule for each kind of value, and a value has a normal form exactly if it can be loaded.

Inside a token nothing is touched but its line: the numbers there stay what they are.

## Main definitions

* `Json.Normal`: one value is the normal form of another.

## Main statements

* `Json.normal_iff`: the normal form of a value is what is stored of the tree that is loaded from it.
* `Tree.loading_inverts_storing`: what is loaded survives being stored, and so do programs.
-/

namespace Arbor

/-! ### Normal forms -/

mutual

/-- The second value is the normal form of the first. -/
inductive Json.Normal : Json → Json → Prop
  | null : Json.Normal .null .null
  | bool (b : Bool) : Json.Normal (.bool b) (.bool b)
  | float (x : Float) : Json.Normal (.float x) (.float x)
  | str (s : String) : Json.Normal (.str s) (.str s)
  /-- A number outside tokens becomes a double. -/
  | int {n : Int} {x : Float} (fits : Tree.doubleOfInt n = .ok x) : Json.Normal (.int n) (.float x)
  | arr {elements results : List Json} (each : Json.EachNormal elements results) :
    Json.Normal (.arr elements) (.arr results)
  /-- The parts of a token stay as they are, but its line becomes an integer. -/
  | token {members : List (String × Json)} {kind lexeme place : Json} {line : Int}
    (tag : Json.member? "__type__" members = some (.str "Token"))
    (hasKind : Json.member? "type" members = some kind)
    (hasLexeme : Json.member? "lexeme" members = some lexeme)
    (hasLine : Json.member? "line" members = some place)
    (isLine : Tree.lineOfJson place = .ok line) :
    Json.Normal (.obj members)
      (.obj [("__type__", .str "Token"), ("type", kind), ("lexeme", lexeme),
        ("literal", (Json.member? "literal" members).getD .null), ("line", .int line)])
  /-- A node keeps its fields, in their order, and nothing else. -/
  | node {members : List (String × Json)} {kind : NodeKind} {values results : List Json}
    (noToken : Json.member? "__type__" members ≠ some (.str "Token"))
    (named : Json.member? "type" members = some (.str kind.name))
    (fields : kind.fields.map (Json.member? · members) = values.map some)
    (each : Json.EachNormal values results) :
    Json.Normal (.obj members) (.obj (("type", .str kind.name) :: kind.fields.zip results))

/-- The second values are the normal forms of the first. -/
inductive Json.EachNormal : List Json → List Json → Prop
  | nil : Json.EachNormal [] []
  | cons {o r : Json} {os rs : List Json} (first : Json.Normal o r)
    (rest : Json.EachNormal os rs) : Json.EachNormal (o :: os) (r :: rs)

end

theorem Json.mem_of_member? {name : String} {value : Json} :
    ∀ {members : List (String × Json)}, Json.member? name members = some value →
      value ∈ members.map Prod.snd
  | (key, other) :: rest, found => by
    rw [Json.member?] at found
    split at found
    · cases found
      exact List.mem_cons_self
    · exact List.mem_cons_of_mem _ (Json.mem_of_member? found)

/-- The kind that is found by a name has that name. -/
theorem NodeKind.name_of_ofName? {name : String} {kind : NodeKind}
    (found : NodeKind.ofName? name = some kind) : name = kind.name := by
  unfold NodeKind.ofName? at found
  have named := List.find?_some found
  exact (eq_of_beq named).symm

namespace Tree

/-! ### Loading, taken apart -/

section Parts

variable {members : List (String × Json)} {kind : NodeKind}

theorem bind_eq_ok_iff {α β : Type} {x : Except TreeError α} {f : α → Except TreeError β} {b : β} :
    x >>= f = .ok b ↔ ∃ a, x = .ok a ∧ f a = .ok b := by
  cases x with
  | error e => exact ⟨nofun, nofun⟩
  | ok a => exact ⟨fun same => ⟨a, rfl, same⟩, fun ⟨_, same, run⟩ => Except.ok.inj same ▸ run⟩

theorem map_eq_ok_iff {α β : Type} {x : Except TreeError α} {f : α → β} {b : β} :
    f <$> x = .ok b ↔ ∃ a, x = .ok a ∧ f a = b := by
  cases x with
  | error e => exact ⟨nofun, nofun⟩
  | ok a =>
    refine ⟨fun same => ⟨a, rfl, Except.ok.inj same⟩, ?_⟩
    rintro ⟨_, same, rfl⟩
    cases same
    rfl

theorem isToken_iff {members : List (String × Json)} :
    isToken members = true ↔ Json.member? "__type__" members = some (.str "Token") := by
  unfold isToken
  split
  · next tag found => rw [found, beq_iff_eq, Option.some.injEq, Json.str.injEq]
  · next other => exact ⟨nofun, fun tagged => absurd tagged (other "Token")⟩

/-- A kind of node is read from its name and from nothing else. -/
theorem kindNamed_eq_ok_iff {named : Json} : kindNamed named = .ok kind ↔ named = .str kind.name := by
  constructor
  · intro known
    unfold kindNamed at known
    split at known
    · split at known
      · next name kind' found =>
        cases known
        exact congrArg Json.str (NodeKind.name_of_ofName? found)
      · cases known
    · split at known <;> cases known
  · rintro rfl
    rw [kindNamed, kind.ofName?_name]

theorem kindOf_eq_ok_iff :
    kindOf members = .ok kind ↔ Json.member? "type" members = some (.str kind.name) := by
  rw [kindOf, kindNamed_eq_ok_iff]
  cases Json.member? "type" members with
  | none => simp
  | some value => rw [Option.getD_some, Option.some.injEq]

theorem tokenPart_eq_ok_iff {name : String} {value : Json} :
    tokenPart name members = .ok value ↔ Json.member? name members = some value := by
  unfold tokenPart
  cases Json.member? name members with
  | none => exact ⟨nofun, nofun⟩
  | some value' => rw [Except.ok.injEq, Option.some.injEq]

/-- Elements are loaded one by one, and the list is loaded if every one of them is.  With one that
is not, the list is not loaded either, and the first such error is that of the list. -/
theorem listOfJson_eq_ok_iff : ∀ {os : List Json} {ts : List Tree},
    listOfJson os = .ok ts ↔ os.map ofJson = ts.map .ok
  | [], [] => ⟨fun _ => rfl, fun _ => rfl⟩
  | [], _ :: _ => ⟨nofun, nofun⟩
  | o :: os, ts => by
    rw [listOfJson, bind_eq_ok_iff]
    constructor
    · rintro ⟨t, first, later⟩
      obtain ⟨rest, each, same⟩ := bind_eq_ok_iff.mp later
      cases same
      rw [List.map_cons, List.map_cons, first, listOfJson_eq_ok_iff.mp each]
    · intro each
      cases ts with
      | nil => cases each
      | cons t ts =>
        obtain ⟨first, later⟩ := List.cons.inj each
        exact ⟨t, first, bind_eq_ok_iff.mpr ⟨ts, listOfJson_eq_ok_iff.mpr later, rfl⟩⟩

/-- Members are loaded where they are, so looking one up and loading it can be done in either
order. -/
theorem lookup_membersOfJson (name : String) : ∀ members : List (String × Json),
    (membersOfJson members).lookup name = (Json.member? name members).map ofJson
  | [] => rfl
  | (key, value) :: rest => by
    rw [membersOfJson, List.lookup_cons, Json.member?]
    by_cases same : key = name
    · rw [if_pos same, beq_iff_eq.mpr same.symm]
      rfl
    · rw [if_neg same, beq_eq_false_iff_ne.mpr (Ne.symm same)]
      exact lookup_membersOfJson name rest

/-- The part of a field, as far as it is there. -/
def partOf (loaded : List (String × Except TreeError Tree)) (name : String) :
    Except TreeError (Option Tree) :=
  match loaded.lookup name with
  | some result => some <$> result
  | none => pure none

theorem gather_cons (loaded : List (String × Except TreeError Tree)) (name : String)
    (names : List String) : gather loaded (name :: names) = (partOf loaded name >>= fun part =>
      gather loaded names >>= fun rest => pure (part :: rest)) := by
  rw [gather, partOf]
  cases loaded.lookup name <;> rfl

/-- A part of a node is what its member was loaded to, if the member is there and could be
loaded. -/
theorem partOf_eq_ok_iff {name : String} {part : Tree} :
    partOf (membersOfJson members) name = .ok (some part) ↔
      ∃ value, Json.member? name members = some value ∧ ofJson value = .ok part := by
  rw [partOf, lookup_membersOfJson]
  cases Json.member? name members with
  | none => exact ⟨nofun, nofun⟩
  | some value =>
    refine map_eq_ok_iff.trans ⟨?_, ?_⟩
    · rintro ⟨_, loads, same⟩
      cases same
      exact ⟨value, rfl, loads⟩
    · rintro ⟨_, same, loads⟩
      cases same
      exact ⟨part, loads, rfl⟩

/-- The parts of some fields are all there exactly if all fields have members, which are loaded.  A
member that no field asks for may be anything. -/
theorem gather_eq_ok_iff : ∀ {names : List String} {parts : List Tree},
    gather (membersOfJson members) names = .ok (parts.map some) ↔ ∃ values : List Json,
      names.map (Json.member? · members) = values.map some ∧ values.map ofJson = parts.map .ok
  | [], [] => ⟨fun _ => ⟨[], rfl, rfl⟩, fun _ => rfl⟩
  | [], _ :: _ => by
    refine ⟨nofun, ?_⟩
    rintro ⟨values, named, loaded⟩
    rw [List.map_eq_nil_iff.mp named.symm] at loaded
    cases loaded
  | name :: names, parts => by
    rw [gather_cons, bind_eq_ok_iff]
    constructor
    · rintro ⟨part?, first, later⟩
      obtain ⟨rest, gathered, same⟩ := bind_eq_ok_iff.mp later
      cases parts with
      | nil => cases same
      | cons part parts =>
        obtain ⟨rfl, rfl⟩ := List.cons.inj (Except.ok.inj same)
        obtain ⟨values, named, loaded⟩ := gather_eq_ok_iff.mp gathered
        obtain ⟨value, found, loads⟩ := partOf_eq_ok_iff.mp first
        refine ⟨value :: values, ?_, ?_⟩
        · rw [List.map_cons, List.map_cons, found, named]
        · rw [List.map_cons, List.map_cons, loads, loaded]
    · rintro ⟨values, named, loaded⟩
      cases values with
      | nil => cases named
      | cons value values =>
        cases parts with
        | nil => cases loaded
        | cons part parts =>
          obtain ⟨found, named⟩ := List.cons.inj named
          obtain ⟨loads, loaded⟩ := List.cons.inj loaded
          have first := partOf_eq_ok_iff.mpr ⟨value, found, loads⟩
          have later := gather_eq_ok_iff.mpr ⟨values, named, loaded⟩
          exact ⟨some part, first, bind_eq_ok_iff.mpr ⟨parts.map some, later, rfl⟩⟩

theorem map_some_filterMap {parts : List (Option Tree)} (all : parts.all Option.isSome = true) :
    (parts.filterMap id).map some = parts := by
  induction parts with
  | nil => rfl
  | cons part? parts ih =>
    obtain ⟨first, later⟩ := Bool.and_eq_true_iff.mp all
    obtain ⟨part, rfl⟩ := Option.isSome_iff_exists.mp first
    exact congrArg (some part :: ·) (ih later)

/-- What an object is loaded as: a token if it is tagged as one, else a node of the kind that it
names, of what its fields are loaded as. -/
theorem assemble_eq_ok_iff {t : Tree} :
    assemble members (membersOfJson members) = .ok t ↔
      (Json.member? "__type__" members = some (.str "Token") ∧
        ∃ token, tokenOf members = .ok token ∧ .token token = t) ∨
      (Json.member? "__type__" members ≠ some (.str "Token") ∧
        ∃ (kind : NodeKind) (values : List Json) (parts : List Tree),
          Json.member? "type" members = some (.str kind.name) ∧
          kind.fields.map (Json.member? · members) = values.map some ∧
          values.map ofJson = parts.map .ok ∧ .node kind parts = t) := by
  unfold assemble
  by_cases tag : Json.member? "__type__" members = some (.str "Token")
  · rw [if_pos (isToken_iff.mpr tag), map_eq_ok_iff]
    exact ⟨fun loads => .inl ⟨tag, loads⟩, fun loads => (loads.resolve_right (·.1 tag)).2⟩
  · rw [if_neg (tag ∘ isToken_iff.mp), bind_eq_ok_iff]
    constructor
    · rintro ⟨kind, named, loads⟩
      obtain ⟨parts, gathered, same⟩ := bind_eq_ok_iff.mp loads
      split at same
      · next all =>
        rw [← map_some_filterMap all] at gathered
        obtain ⟨values, fields, loaded⟩ := gather_eq_ok_iff.mp gathered
        exact .inr ⟨tag, kind, values, _, kindOf_eq_ok_iff.mp named, fields, loaded,
          Except.ok.inj same⟩
      · cases same
    · rintro (⟨tagged, -⟩ | ⟨-, kind, values, parts, named, fields, loaded, rfl⟩)
      · exact absurd tagged tag
      · have gathered := gather_eq_ok_iff.mpr ⟨values, fields, loaded⟩
        refine ⟨kind, kindOf_eq_ok_iff.mpr named, bind_eq_ok_iff.mpr ⟨_, gathered, ?_⟩⟩
        rw [if_pos (by simp)]
        simp [pure, Except.pure]

/-- A token is made of its members as they are, but for the line, which is read as an integer, and
for a literal, which may be missing. -/
theorem tokenOf_eq_ok_iff {token : StoredToken} :
    tokenOf members = .ok token ↔ ∃ place, Json.member? "type" members = some token.kind ∧
      Json.member? "lexeme" members = some token.lexeme ∧
      Json.member? "line" members = some place ∧ lineOfJson place = .ok token.line ∧
      (Json.member? "literal" members).getD .null = token.literal := by
  unfold tokenOf
  simp only [bind_eq_ok_iff, tokenPart_eq_ok_iff]
  constructor
  · rintro ⟨kind, hasKind, lexeme, hasLexeme, place, hasLine, line, isLine, same⟩
    cases same
    exact ⟨place, hasKind, hasLexeme, hasLine, isLine, rfl⟩
  · rintro ⟨place, hasKind, hasLexeme, hasLine, isLine, literal⟩
    refine ⟨_, hasKind, _, hasLexeme, place, hasLine, _, isLine, ?_⟩
    rw [literal]
    rfl

end Parts

/-! ### Loading and normal forms -/

/-- Whatever a value is loaded as is complete, and stored as the normal form of the value. -/
def LoadsNormal (o : Json) : Prop :=
  ∀ t, ofJson o = .ok t → t.Complete ∧ Json.Normal o t.toJson

/-- So for values that are loaded one by one. -/
theorem LoadsNormal.each : ∀ {os : List Json} {ts : List Tree}, (∀ o ∈ os, LoadsNormal o) →
    os.map ofJson = ts.map .ok → AllComplete ts ∧ Json.EachNormal os (listToJson ts)
  | [], [], _, _ => ⟨trivial, .nil⟩
  | [], _ :: _, _, loaded => nomatch loaded
  | _ :: _, [], _, loaded => nomatch loaded
  | o :: os, t :: ts, each, loaded => by
    obtain ⟨first, later⟩ := List.cons.inj loaded
    obtain ⟨complete, normal⟩ := each o List.mem_cons_self t first
    obtain ⟨completes, normals⟩ :=
      LoadsNormal.each (fun o mem => each o (List.mem_cons_of_mem _ mem)) later
    exact ⟨⟨complete, completes⟩, .cons normal normals⟩

/-- An object is loaded as a token or as a node of what its members are loaded as.  In either case
it is stored with the members that were asked for, and no others. -/
theorem LoadsNormal.obj {members : List (String × Json)}
    (each : ∀ o ∈ members.map Prod.snd, LoadsNormal o) : LoadsNormal (.obj members) := by
  intro t loads
  rw [ofJson] at loads
  rcases assemble_eq_ok_iff.mp loads with ⟨tag, token, parts, rfl⟩ |
    ⟨noToken, kind, values, parts, named, fields, loaded, rfl⟩
  · obtain ⟨place, hasKind, hasLexeme, hasLine, isLine, literal⟩ := tokenOf_eq_ok_iff.mp parts
    refine ⟨trivial, ?_⟩
    rw [toJson, tokenToJson, ← literal]
    exact .token tag hasKind hasLexeme hasLine isLine
  · have here : ∀ o ∈ values, LoadsNormal o := by
      intro o mem
      have asked : some o ∈ kind.fields.map (Json.member? · members) := by
        rw [fields]
        exact List.mem_map_of_mem mem
      obtain ⟨name, -, found⟩ := List.mem_map.mp asked
      exact each o (Json.mem_of_member? found)
    obtain ⟨completes, normals⟩ := LoadsNormal.each here loaded
    have size : parts.length = kind.fields.length := by
      have named := congrArg List.length fields
      have loaded := congrArg List.length loaded
      simp only [List.length_map] at named loaded
      omega
    exact ⟨⟨size, completes⟩, .node noToken named fields normals⟩

mutual

/-- Whatever is loaded is stored in the normal form of what it was loaded from.  The induction is on
what is loaded, over elements and members alike. -/
theorem loadsNormal : ∀ o : Json, LoadsNormal o
  | .null, _, loads => by cases loads; exact ⟨trivial, .null⟩
  | .bool b, _, loads => by cases loads; exact ⟨trivial, .bool b⟩
  | .float x, _, loads => by cases loads; exact ⟨trivial, .float x⟩
  | .str s, _, loads => by cases loads; exact ⟨trivial, .str s⟩
  | .int n, _, loads => by
    rw [ofJson] at loads
    obtain ⟨x, fits, rfl⟩ := map_eq_ok_iff.mp loads
    exact ⟨trivial, .int fits⟩
  | .arr elements, _, loads => by
    rw [ofJson] at loads
    obtain ⟨ts, each, rfl⟩ := map_eq_ok_iff.mp loads
    obtain ⟨completes, normals⟩ :=
      LoadsNormal.each (allLoadNormal elements) (listOfJson_eq_ok_iff.mp each)
    exact ⟨completes, .arr normals⟩
  | .obj members, t, loads => LoadsNormal.obj (membersLoadNormal members) t loads
termination_by structural o => o

theorem allLoadNormal : ∀ os : List Json, ∀ o ∈ os, LoadsNormal o
  | [], _, mem => absurd mem List.not_mem_nil
  | o :: os, o', mem => by
    rcases List.mem_cons.mp mem with same | mem
    · rw [same]
      exact loadsNormal o
    · exact allLoadNormal os o' mem
termination_by structural os => os

theorem membersLoadNormal : ∀ members : List (String × Json),
    ∀ o ∈ members.map Prod.snd, LoadsNormal o
  | [], _, mem => absurd mem List.not_mem_nil
  | (_, value) :: rest, o', mem => by
    rcases List.mem_cons.mp mem with same | mem
    · rw [same]
      exact loadsNormal value
    · exact membersLoadNormal rest o' mem
termination_by structural members => members

end

mutual

/-- What has a normal form can be loaded, and is stored in that form.  The induction is on the
normal form, which says for each object what its members have to be. -/
theorem exists_of_normal : ∀ {o r : Json}, Json.Normal o r → ∃ t, ofJson o = .ok t ∧ t.toJson = r
  | _, _, .null => ⟨.null, rfl, rfl⟩
  | _, _, .bool b => ⟨.bool b, rfl, rfl⟩
  | _, _, .float x => ⟨.number x, rfl, rfl⟩
  | _, _, .str s => ⟨.text s, rfl, rfl⟩
  | _, _, @Json.Normal.int _ x fits => ⟨.number x, by rw [ofJson, fits]; rfl, rfl⟩
  | _, _, .arr each => by
    obtain ⟨ts, loaded, rfl⟩ := exists_of_eachNormal each
    refine ⟨.list ts, ?_, rfl⟩
    rw [ofJson]
    exact map_eq_ok_iff.mpr ⟨ts, listOfJson_eq_ok_iff.mpr loaded, rfl⟩
  | _, _, @Json.Normal.token _ kind lexeme _ line tag hasKind hasLexeme hasLine isLine => by
    refine ⟨.token ⟨kind, lexeme, _, line⟩, ?_, rfl⟩
    rw [ofJson]
    refine assemble_eq_ok_iff.mpr (.inl ⟨tag, _, tokenOf_eq_ok_iff.mpr ?_, rfl⟩)
    exact ⟨_, hasKind, hasLexeme, hasLine, isLine, rfl⟩
  | _, _, @Json.Normal.node _ kind _ _ noToken named fields each => by
    obtain ⟨ts, loaded, rfl⟩ := exists_of_eachNormal each
    refine ⟨.node kind ts, ?_, rfl⟩
    rw [ofJson]
    exact assemble_eq_ok_iff.mpr (.inr ⟨noToken, kind, _, ts, named, fields, loaded, rfl⟩)

theorem exists_of_eachNormal : ∀ {os rs : List Json}, Json.EachNormal os rs →
    ∃ ts : List Tree, os.map ofJson = ts.map .ok ∧ listToJson ts = rs
  | _, _, .nil => ⟨[], rfl, rfl⟩
  | _, _, .cons first rest => by
    obtain ⟨t, loads, rfl⟩ := exists_of_normal first
    obtain ⟨ts, loaded, rfl⟩ := exists_of_eachNormal rest
    exact ⟨t :: ts, by rw [List.map_cons, List.map_cons, loads, loaded], rfl⟩

end

end Tree

/-- The normal form of a value is what is stored of the tree that is loaded from it. -/
theorem Json.normal_iff {o r : Json} :
    Json.Normal o r ↔ ∃ t, Tree.ofJson o = .ok t ∧ t.toJson = r := by
  refine ⟨Tree.exists_of_normal, ?_⟩
  rintro ⟨t, loads, rfl⟩
  exact (Tree.loadsNormal o t loads).2

/-- The program that a text reads as is loaded as it was stored. -/
theorem Program.ofTree_toTree_ofText (text : String) :
    Program.ofTree (Program.ofText text).program.toTree = .ok (Program.ofText text).program := by
  rw [Program.ofTree_toTree (Session.formed_ofText text), Program.unresolved_ofText]

/-- Loading and storing are inverse up to normal forms.  What is loaded from any value survives being
stored, and is stored as the only normal form of the value.  What is read from a text is loaded
as it was stored. -/
theorem Tree.loading_inverts_storing :
    (∀ (o : Json) (t : Tree), Tree.ofJson o = .ok t →
      Tree.ofJson t.toJson = .ok t ∧ Tree.toJson <$> Tree.ofJson t.toJson = .ok t.toJson ∧
      ∀ r, Json.Normal o r ↔ r = t.toJson) ∧
    ∀ text : String,
      Tree.ofJson (Program.ofText text).program.toTree.toJson =
        .ok (Program.ofText text).program.toTree ∧
      Program.ofTree (Program.ofText text).program.toTree = .ok (Program.ofText text).program := by
  refine ⟨fun o t loads => ?_, fun text => ⟨Program.ofJson_toTree _, Program.ofTree_toTree_ofText _⟩⟩
  obtain ⟨complete, normal⟩ := Tree.loadsNormal o t loads
  have again := Tree.ofJson_toJson t complete
  refine ⟨again, by rw [again]; rfl, fun r => ⟨fun normal' => ?_, fun same => same ▸ normal⟩⟩
  obtain ⟨t', loads', rfl⟩ := Json.normal_iff.mp normal'
  cases loads.symm.trans loads'
  rfl

/-- A call with its members out of order and a further one among them, an integer for a number, and
a token that lacks a value and has its line as a text. -/
def Json.looseCall : Json :=
  .obj [("arguments", .arr [.obj [("value", .int 3), ("type", .str "Literal")]]),
    ("note", .int 2),
    ("paren", .obj [("line", .str " 7"), ("lexeme", .str ")"), ("__type__", .str "Token"),
      ("type", .str "RIGHT_PAREN")]),
    ("type", .str "Call"), ("callee", .null)]

/-- The loose call is loaded with its parts in order, and with the double of its integer. -/
theorem Tree.ofJson_looseCall : Tree.ofJson Json.looseCall = .ok (.node .call
    [.null, .token ⟨.str "RIGHT_PAREN", .str ")", .null, 7⟩,
      .list [.node .literal [.number 3]]]) :=
  rfl

/-- What the loose call is loaded as survives being stored, and is stored as its normal form. -/
theorem Tree.loose_call_restored : ∃ t : Tree, Tree.ofJson Json.looseCall = .ok t ∧
    t = .node .call [.null, .token ⟨.str "RIGHT_PAREN", .str ")", .null, 7⟩,
      .list [.node .literal [.number 3]]] ∧
    Tree.ofJson t.toJson = .ok t ∧ Json.Normal Json.looseCall t.toJson := by
  obtain ⟨again, -, normal⟩ := Tree.loading_inverts_storing.1 _ _ Tree.ofJson_looseCall
  exact ⟨_, Tree.ofJson_looseCall, rfl, again, (normal _).mpr rfl⟩

end Arbor
