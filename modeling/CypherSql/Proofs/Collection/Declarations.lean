import CypherSql.Proofs.Collection.Projections

/-! The declarations of a query. Whatever the walk over its clauses does, it declares variables one
by one, under names that are made from those written in the query, and neither adds nor removes any
other.
-/

namespace CypherSql.Cypher

/-- The names that a path pattern gives. -/
def PathPattern.names (path : PathPattern) : List String :=
  path.nodes.filterMap (·.name) ++ path.relationships.filterMap (·.name) ++ path.name.toList

/-- The names that a clause gives: those of its patterns, or of its items. -/
def Clause.names : Clause → List String
  | .matching clause => clause.patterns.flatMap PathPattern.names
  | .withItems projection _ => projection.items.filterMap (·.aliasName)
  | .returnItems projection => projection.items.filterMap (·.aliasName)

/-- The names that a query gives. -/
def Query.names (query : Query) : List String :=
  query.clauses.flatMap Clause.names

end CypherSql.Cypher

namespace CypherSql.Plan

open Cypher (NodePattern RelationshipPattern PathPattern MatchClause Projection ProjectionItem)

/-- What ids are made from where a query gives no name. -/
def unnamedBases : List String :=
  ["anon_n", "anon_r", "col"]

namespace Walk

/-- Between the walks nothing is declared, and no variable comes or goes. -/
structure Keeps (walk later : Walk) : Prop where
  naming : later.naming = walk.naming
  declared : later.declared = walk.declared
  ids : ∀ id, (later.vars.get? id).isSome = (walk.vars.get? id).isSome

/-- Between the walks variables are declared, with ids made from the given names. Nothing else is
done that makes or removes a variable.
-/
inductive Proceeds (names : String → Prop) (walk : Walk) : Walk → Prop where
  | refl : Proceeds names walk walk
  | declare {later} (proceeds : Proceeds names walk later) {base : String} (isName : names base)
    (make : VarId → String × Definition)
    : Proceeds names walk (later.declare base make).2
  | keep {later last} (proceeds : Proceeds names walk later) (keeps : later.Keeps last)
    : Proceeds names walk last

variable {names : String → Prop} {walk later last : Walk}

theorem Keeps.proceeds (keeps : walk.Keeps later) : walk.Proceeds names later :=
  .keep .refl keeps

theorem Proceeds.trans (first : walk.Proceeds names later) (second : later.Proceeds names last)
    : walk.Proceeds names last := by
  induction second with
  | refl => exact first
  | declare _ isName make ih => exact ih.declare isName make
  | keep _ keeps ih => exact ih.keep keeps

theorem keeps_bind (walk : Walk) (name : Option String) (id : VarId)
    : walk.Keeps (walk.bind name id) := by
  cases name with
  | none => exact ⟨rfl, rfl, fun _ => rfl⟩
  | some name => exact ⟨rfl, rfl, fun _ => rfl⟩

/-- A variable may get a name once it is declared. -/
theorem proceeds_declare (walk : Walk) {base : String} (isName : names base)
    (make : VarId → String × Definition) (name : Option String)
    : walk.Proceeds names ((walk.declare base make).2.bind name (walk.declare base make).1) :=
  (Proceeds.declare .refl isName make).keep (keeps_bind _ _ _)

/-- Every variable of the walk was declared, and each only once: its id was new. -/
structure Accounts (walk : Walk) : Prop where
  tracks : walk.naming.Tracks walk.declared
  distinct : walk.declared.Nodup
  declared : ∀ id, id ∈ walk.declared ↔ (walk.vars.get? id).isSome

theorem accounts_start : start.Accounts where
  tracks := Naming.tracks_initial
  distinct := List.nodup_nil
  declared := by simp [start, VarTable.get?, VarTable.empty]

/-- A declaration replaces no variable. -/
theorem Accounts.get?_eq_none (accounts : walk.Accounts) (base : String)
    (make : VarId → String × Definition)
    : walk.vars.get? (walk.declare base make).1 = none := by
  have new := (accounts.tracks.fresh base).1.new
  rw [accounts.declared] at new
  exact Option.not_isSome_iff_eq_none.mp new

/-- A declaration accounts for the variable that it makes. -/
theorem Accounts.declare (accounts : walk.Accounts) (base : String)
    (make : VarId → String × Definition)
    : (walk.declare base make).2.Accounts := by
  obtain ⟨gets, tracks⟩ := accounts.tracks.fresh base
  refine ⟨tracks, ?_, fun id => ?_⟩
  · refine List.nodup_append.mpr ⟨accounts.distinct, by simp, ?_⟩
    intro id old other new same
    have same : id = (walk.naming.fresh base).1 := same.trans (List.mem_singleton.mp new)
    exact gets.new (same ▸ old)
  · rw [get?_declare]
    have members : id ∈ (walk.declare base make).2.declared
        ↔ id ∈ walk.declared ∨ id = (walk.declare base make).1 := by
      simp [Walk.declare]
    rw [members, accounts.declared]
    split
    · simp [*]
    · simp [*]

/-- Wherever the walk proceeds, every variable was declared only once. -/
theorem Proceeds.accounts (proceeds : walk.Proceeds names later) (accounts : walk.Accounts)
    : later.Accounts := by
  induction proceeds with
  | refl => exact accounts
  | declare _ _ make ih => exact ih.declare _ make
  | keep _ keeps ih =>
      obtain ⟨naming, declared, ids⟩ := keeps
      refine ⟨by rw [naming, declared]; exact ih.tracks, declared ▸ ih.distinct, fun id => ?_⟩
      rw [declared, ids]
      exact ih.declared id

/-- The id is made from a base: the base itself, or the base with a number. -/
def MadeFrom (base : String) (id : VarId) : Prop :=
  id = base ∨ ∃ n : Nat, id = base ++ "_" ++ toString n

theorem madeFrom_fresh (naming : Naming) (base : String) : MadeFrom base (naming.fresh base).1 := by
  unfold Naming.fresh
  dsimp only
  split
  · exact .inr ⟨_, rfl⟩
  · exact .inl rfl

/-- Wherever the walk proceeds, its new ids are made from the given names. -/
theorem Proceeds.madeFrom (proceeds : walk.Proceeds names later) {id : VarId}
    (member : id ∈ later.declared)
    : id ∈ walk.declared ∨ ∃ base, names base ∧ MadeFrom base id := by
  induction proceeds with
  | refl => exact .inl member
  | declare _ isName _ ih =>
      rcases List.mem_append.mp member with earlier | new
      · exact ih earlier
      · obtain rfl := List.mem_singleton.mp new
        exact .inr ⟨_, isName, madeFrom_fresh _ _⟩
  | keep _ keeps ih => exact ih (keeps.declared ▸ member)

end Walk

/-- The names that the parts of a pattern or projection give are those of the first part and of the
others.
-/
theorem forall_mem_names_cons {α : Type} {names : String → Prop}
    {name? : α → Option String} {first : α}
    {rest : List α}
    : (∀ name ∈ (first :: rest).filterMap name?, names name)
      ↔ (∀ name ∈ name? first, names name) ∧ ∀ name ∈ rest.filterMap name?, names name := by
  cases given : name? first <;> simp [given]

section Patterns

variable {names : String → Prop} {state later : ClauseWalk}

/-- The walk of a later place of the clause. -/
abbrev ClauseWalk.Proceeds (names : String → Prop) (state later : ClauseWalk) : Prop :=
  state.walk.Proceeds names later.walk

/-- Labels that are added to a node leave the ids as they are. -/
theorem ClauseWalk.proceeds_addLabels (state : ClauseWalk) (id : VarId) (node : NodeVar)
    (labels : List String)
    : state.Proceeds names (state.addLabels id node labels) := by
  refine Walk.Keeps.proceeds ⟨rfl, rfl, fun other => ?_⟩
  simp only [ClauseWalk.addLabels, VarTable.get?_redefine]
  split
  · simp [*]
  · rfl

theorem ClauseWalk.proceeds_mentionNode {pattern : NodePattern} {name : String} {id : VarId}
    {result : VarId × ClauseWalk} (taken : state.mentionNode pattern name id = .ok result)
    : state.Proceeds names result.2 := by
  have finish {middle : ClauseWalk} (proceeds : state.Proceeds names middle)
      (taken
        : (do
            let conditions ← middle.walk.propertyConditions id pattern.properties
            return (id, { middle with conditions := middle.conditions ++ conditions }))
          = Except.ok result)
      : state.Proceeds names result.2 := by
    obtain ⟨conditions, -, same⟩ := bind_eq_ok.mp taken
    obtain rfl := Except.ok.inj same
    exact proceeds
  unfold mentionNode at taken
  dsimp only at taken
  split at taken
  · split at taken
    · exact finish .refl taken
    · split at taken
      · cases taken
      · exact finish (state.proceeds_addLabels ..) taken
  · cases taken
  · cases taken

/-- A new node is declared under its name. -/
theorem ClauseWalk.proceeds_newNode {pattern : NodePattern} {result : VarId × ClauseWalk}
    (unnamed : ∀ base ∈ unnamedBases, names base) (named : ∀ name ∈ pattern.name, names name)
    (taken : state.newNode pattern = .ok result)
    : state.Proceeds names result.2 := by
  obtain ⟨conditions, -, same⟩ := bind_eq_ok.mp taken
  obtain rfl := Except.ok.inj same
  have isName : names (pattern.name.getD "anon_n") := by
    cases given : pattern.name with
    | none => exact unnamed _ (by decide)
    | some name => exact named name given
  exact state.walk.proceeds_declare isName
    (fun id =>
      (pattern.name.getD id, .node
        { labels := .ofList pattern.labels, restriction := Expr.conjoin conditions, required := ∅,
          binding := none }))
    pattern.name

theorem ClauseWalk.proceeds_takeNode {pattern : NodePattern} {result : VarId × ClauseWalk}
    (unnamed : ∀ base ∈ unnamedBases, names base) (named : ∀ name ∈ pattern.name, names name)
    (taken : state.takeNode pattern = .ok result)
    : state.Proceeds names result.2 := by
  unfold takeNode at taken
  split at taken
  · split at taken
    · exact proceeds_mentionNode taken
    · exact proceeds_newNode unnamed named taken
  · exact proceeds_newNode unnamed named taken

/-- A new relationship is declared under its name. -/
theorem ClauseWalk.proceeds_takeRelationship {pattern : RelationshipPattern} {left right : VarId}
    {result : VarId × ClauseWalk} (unnamed : ∀ base ∈ unnamedBases, names base)
    (named : ∀ name ∈ pattern.name, names name)
    (taken : state.takeRelationship pattern left right = .ok result)
    : state.Proceeds names result.2 := by
  unfold takeRelationship at taken
  split at taken
  · cases taken
  · split at taken
    · cases taken
    · obtain ⟨conditions, -, same⟩ := bind_eq_ok.mp taken
      obtain rfl := Except.ok.inj same
      have isName : names (pattern.name.getD "anon_r") := by
        cases given : pattern.name with
        | none => exact unnamed _ (by decide)
        | some name => exact named name given
      exact state.walk.proceeds_declare isName
        (fun id =>
          (pattern.name.getD id, .relationship
            { left, right, direction := pattern.direction, types := pattern.types,
              restriction := Expr.conjoin conditions, required := ∅, binding := none }))
        pattern.name

/-- Nodes are declared one after the other, by induction over them. -/
theorem ClauseWalk.proceeds_takeNodes {patterns : List NodePattern}
    {result : List VarId × ClauseWalk}
    (unnamed : ∀ base ∈ unnamedBases, names base)
    (named : ∀ name ∈ patterns.filterMap (·.name), names name)
    (taken : state.takeNodes patterns = .ok result)
    : state.Proceeds names result.2 := by
  induction patterns generalizing state result with
  | nil =>
      obtain rfl := Except.ok.inj taken
      exact .refl
  | cons pattern rest ih =>
      obtain ⟨⟨id, middle⟩, first, taken⟩ := bind_eq_ok.mp taken
      obtain ⟨⟨ids, last⟩, others, same⟩ := bind_eq_ok.mp taken
      obtain rfl := Except.ok.inj same
      obtain ⟨own, behind⟩ := forall_mem_names_cons.mp named
      have toMiddle : state.Proceeds names middle := proceeds_takeNode unnamed own first
      have toLast : middle.Proceeds names last := ih behind others
      exact toMiddle.trans toLast

/-- So are relationships, by induction over them. -/
theorem ClauseWalk.proceeds_takeRelationships {left : VarId}
    {patterns : List (RelationshipPattern × VarId)} {result : List VarId × ClauseWalk}
    (unnamed : ∀ base ∈ unnamedBases, names base)
    (named : ∀ name ∈ patterns.filterMap (·.1.name), names name)
    (taken : state.takeRelationships left patterns = .ok result)
    : state.Proceeds names result.2 := by
  induction patterns generalizing state left result with
  | nil =>
      obtain rfl := Except.ok.inj taken
      exact .refl
  | cons entry rest ih =>
      obtain ⟨pattern, right⟩ := entry
      obtain ⟨⟨id, middle⟩, first, taken⟩ := bind_eq_ok.mp taken
      obtain ⟨⟨ids, last⟩, others, same⟩ := bind_eq_ok.mp taken
      obtain rfl := Except.ok.inj same
      obtain ⟨own, behind⟩ := forall_mem_names_cons.mp named
      have toMiddle : state.Proceeds names middle := proceeds_takeRelationship unnamed own first
      have toLast : middle.Proceeds names last := ih behind others
      exact toMiddle.trans toLast

/-- A path pattern declares its nodes, its relationships, and itself if it has a name. -/
theorem ClauseWalk.proceeds_takePath {path : PathPattern}
    (unnamed : ∀ base ∈ unnamedBases, names base)
    (named : ∀ name ∈ path.names, names name) (taken : state.takePath path = .ok later)
    : state.Proceeds names later := by
  obtain ⟨⟨start, first⟩, takenStart, taken⟩ := bind_eq_ok.mp taken
  obtain ⟨⟨nodes, second⟩, takenNodes, taken⟩ := bind_eq_ok.mp taken
  obtain ⟨⟨relationships, third⟩, takenRelationships, taken⟩ := bind_eq_ok.mp taken
  have ofNodes {node : NodePattern} (member : node ∈ path.nodes)
      : ∀ name ∈ node.name, names name := by
    intro name given
    refine named name (List.mem_append_left _ (List.mem_append_left _ ?_))
    exact List.mem_filterMap.mpr ⟨node, member, given⟩
  have ofRelationships {relationship : RelationshipPattern}
      (member : relationship ∈ path.relationships)
      : ∀ name ∈ relationship.name, names name := by
    intro name given
    refine named name (List.mem_append_left _ (List.mem_append_right _ ?_))
    exact List.mem_filterMap.mpr ⟨relationship, member, given⟩
  have toFirst : state.Proceeds names first :=
    proceeds_takeNode unnamed (ofNodes (List.mem_cons_self ..)) takenStart
  have toSecond : first.Proceeds names second := by
    refine proceeds_takeNodes unnamed (fun name given => ?_) takenNodes
    obtain ⟨node, member, given⟩ := List.mem_filterMap.mp given
    exact ofNodes (List.mem_cons_of_mem _ member) name given
  have toThird : second.Proceeds names third := by
    refine proceeds_takeRelationships unnamed (fun name given => ?_) takenRelationships
    obtain ⟨⟨relationship, node⟩, member, given⟩ := List.mem_filterMap.mp given
    exact ofRelationships (List.of_mem_zip member).1 name given
  refine (toFirst.trans toSecond).trans (toThird.trans ?_)
  dsimp only at taken
  split at taken
  · rename_i name given
    unfold newPath at taken
    split at taken
    · cases taken
    · obtain rfl := Except.ok.inj taken
      have isName : names name := named name (List.mem_append_right _ (by simp [given]))
      exact third.walk.proceeds_declare isName (fun _ => (name, .path _ _)) (some name)
  · obtain rfl := Except.ok.inj taken
    exact .refl

/-- Path patterns are taken one after the other, by induction over them. -/
theorem ClauseWalk.proceeds_takePaths {paths : List PathPattern}
    (unnamed : ∀ base ∈ unnamedBases, names base)
    (named : ∀ name ∈ paths.flatMap PathPattern.names, names name)
    (taken : paths.foldlM (·.takePath ·) state = .ok later)
    : state.Proceeds names later := by
  induction paths generalizing state with
  | nil =>
      obtain rfl := Except.ok.inj taken
      exact .refl
  | cons path rest ih =>
      rw [List.foldlM_cons] at taken
      obtain ⟨middle, first, others⟩ := bind_eq_ok.mp taken
      rw [List.flatMap_cons, List.forall_mem_append] at named
      exact (proceeds_takePath unnamed named.1 first).trans (ih named.2 others)

end Patterns

namespace Walk

variable {names : String → Prop} {walk later : Walk}

theorem proceeds_takeMatch {clause : MatchClause} (unnamed : ∀ base ∈ unnamedBases, names base)
    (named : ∀ name ∈ clause.patterns.flatMap PathPattern.names, names name)
    (taken : walk.takeMatch clause = .ok later)
    : walk.Proceeds names later := by
  obtain ⟨state, first, taken⟩ := bind_eq_ok.mp taken
  have toState : walk.Proceeds names state.walk := ClauseWalk.proceeds_takePaths unnamed named first
  dsimp only at taken
  split at taken
  · obtain ⟨condition, -, same⟩ := bind_eq_ok.mp taken
    obtain rfl := Except.ok.inj same
    exact toState.keep ⟨rfl, rfl, fun _ => rfl⟩
  · obtain rfl := Except.ok.inj taken
    exact toState.keep ⟨rfl, rfl, fun _ => rfl⟩

/-- An item is declared under its name, or as a column without one. -/
theorem proceeds_takeItem {kind : ScopeKind} {next : Visible} {item : ProjectionItem}
    {result : Item × Visible × Walk} (unnamed : ∀ base ∈ unnamedBases, names base)
    (named : ∀ name ∈ item.aliasName, names name)
    (taken : walk.takeItem kind next item = .ok result)
    : walk.Proceeds names result.2.2 := by
  have column : names "col" := unnamed _ (by decide)
  obtain ⟨expr, -, taken⟩ := bind_eq_ok.mp taken
  dsimp only [declareColumn] at taken
  split at taken
  · rename_i name given _
    split at taken
    · cases taken
    · cases taken
      exact walk.proceeds_declare (named name given) (fun _ => (name, .projected expr none)) none
  · rename_i name _ _ _
    split at taken
    · cases taken
    · cases taken
      exact walk.proceeds_declare column (fun _ => (name, .temporary name)) none
  · cases taken
  · cases taken
    exact walk.proceeds_declare column (fun _ => (item.text, .temporary item.text)) none

/-- Items are declared one after the other, by induction over them. -/
theorem proceeds_takeItems {kind : ScopeKind} {next : Visible} {items : List ProjectionItem}
    {result : List Item × Visible × Walk} (unnamed : ∀ base ∈ unnamedBases, names base)
    (named : ∀ name ∈ items.filterMap (·.aliasName), names name)
    (taken : walk.takeItems kind next items = .ok result)
    : walk.Proceeds names result.2.2 := by
  induction items generalizing walk next result with
  | nil =>
      obtain rfl := Except.ok.inj taken
      exact .refl
  | cons item rest ih =>
      obtain ⟨⟨first, visible, middle⟩, takenFirst, taken⟩ := bind_eq_ok.mp taken
      obtain ⟨⟨others, last, final⟩, takenRest, same⟩ := bind_eq_ok.mp taken
      obtain rfl := Except.ok.inj same
      obtain ⟨own, behind⟩ := forall_mem_names_cons.mp named
      have toMiddle : walk.Proceeds names middle := proceeds_takeItem unnamed own takenFirst
      have toFinal : middle.Proceeds names final := ih behind takenRest
      exact toMiddle.trans toFinal

theorem proceeds_closeScope {kind : ScopeKind} {projection : Projection}
    {condition : Option Cypher.Expr}
    (unnamed : ∀ base ∈ unnamedBases, names base)
    (named : ∀ name ∈ projection.items.filterMap (·.aliasName), names name)
    (taken : walk.closeScope kind projection condition = .ok later)
    : walk.Proceeds names later := by
  obtain ⟨⟨items, next, middle⟩, first, taken⟩ := bind_eq_ok.mp taken
  obtain ⟨orderBy, -, taken⟩ := bind_eq_ok.mp taken
  obtain ⟨skip, -, taken⟩ := bind_eq_ok.mp taken
  obtain ⟨limit, -, taken⟩ := bind_eq_ok.mp taken
  obtain ⟨filter, -, same⟩ := bind_eq_ok.mp taken
  obtain rfl := Except.ok.inj same
  exact (proceeds_takeItems unnamed named first).keep ⟨rfl, rfl, fun _ => rfl⟩

/-- Clauses are taken one after the other, by induction over them. -/
theorem proceeds_takeClauses {clauses : List Cypher.Clause} {returned : Bool}
    (unnamed : ∀ base ∈ unnamedBases, names base)
    (named : ∀ name ∈ clauses.flatMap Cypher.Clause.names, names name)
    (taken : walk.takeClauses returned clauses = .ok later)
    : walk.Proceeds names later := by
  induction clauses generalizing walk returned with
  | nil =>
      unfold takeClauses at taken
      split at taken
      · obtain rfl := Except.ok.inj taken
        exact .refl
      · cases taken
  | cons clause rest ih =>
      rw [List.flatMap_cons, List.forall_mem_append] at named
      unfold takeClauses at taken
      split at taken
      · cases taken
      · cases clause with
        | matching clause =>
            obtain ⟨middle, first, others⟩ := bind_eq_ok.mp taken
            exact (proceeds_takeMatch unnamed named.1 first).trans (ih named.2 others)
        | withItems projection condition =>
            obtain ⟨middle, first, others⟩ := bind_eq_ok.mp taken
            exact (proceeds_closeScope unnamed named.1 first).trans (ih named.2 others)
        | returnItems projection =>
            obtain ⟨middle, first, others⟩ := bind_eq_ok.mp taken
            exact (proceeds_closeScope unnamed named.1 first).trans (ih named.2 others)

end Walk

/-- The collection of a query declares variables with ids made from the names of the query. -/
theorem collect_proceeds {query : Cypher.Query} {walk : Walk} {names : String → Prop}
    (unnamed : ∀ base ∈ unnamedBases, names base) (named : ∀ name ∈ query.names, names name)
    (collected : collect query = .ok walk)
    : Walk.start.Proceeds names walk :=
  Walk.proceeds_takeClauses unnamed named collected

end CypherSql.Plan
