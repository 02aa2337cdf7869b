import CypherSql.Proofs.Filters.Written

/-! The relationships of a query as they are written. Each relationship that a `MATCH` declares has
the direction and the types of its pattern, and its ends are the nodes that are written on either
side of it, which for a node with a name is what the name stands for.
-/

namespace CypherSql.Plan

open Cypher (NodePattern RelationshipPattern PathPattern MatchClause Projection)

/-- The relationships of a path with the nodes around them, where the first node is given, and each
relationship with the node after it.
-/
def betweenNodes (left : VarId)
    : List (RelationshipPattern × VarId) → List (RelationshipPattern × VarId × VarId)
  | [] => []
  | (pattern, right) :: rest => (pattern, left, right) :: betweenNodes right rest

/-- The variable is a relationship with the direction and the types of a pattern, between given
nodes.
-/
def VarTable.Links (vars : VarTable) (written : RelationshipPattern × VarId × VarId) (id : VarId)
    : Prop :=
  ∃ rel,
    vars.relationship? id = some rel
    ∧ rel.direction = written.1.direction
    ∧ rel.types = written.1.types
    ∧ rel.left = written.2.1
    ∧ rel.right = written.2.2

/-- The variable is what the name of a pattern stands for, if it has one. -/
def IsNamed (names : Visible) (pattern : NodePattern) (id : VarId) : Prop :=
  ∀ name ∈ pattern.name, names.get? name = some id

/-- The variables are the relationships of a path, between nodes of which those with a name are what
it stands for.
-/
def PathLinks (vars : VarTable) (names : Visible) (path : PathPattern) (ids : List VarId) : Prop :=
  ∃ start nodes,
    List.Forall₂ (IsNamed names) path.nodes (start :: nodes)
    ∧ List.Forall₂ vars.Links (betweenNodes start (path.relationships.zip nodes)) ids

/-- The relationships of a clause are those of the paths of a `MATCH`, in their order. -/
def ReadingClause.Links (vars : VarTable) (clause : ReadingClause) (written : MatchClause) : Prop :=
  clause.optional = written.optional
  ∧ ∃ names ids,
      clause.relationships = ids.flatten
      ∧ List.Forall₂ (PathLinks vars names) written.patterns ids

/-- The names that are visible at a place in the walk stay so further on in the clause. -/
def Visible.StayIn (names later : Visible) : Prop :=
  ∀ {name id}, names.get? name = some id → later.get? name = some id

theorem IsNamed.stay {names later : Visible} (stay : names.StayIn later) {pattern : NodePattern}
    {id : VarId} (isNamed : IsNamed names pattern id)
    : IsNamed later pattern id :=
  fun name given => stay (isNamed name given)

theorem VarTable.Links.extend {walk later : Walk} (extends' : walk.Extends later)
    {written : RelationshipPattern × VarId × VarId} {id : VarId}
    (links : walk.vars.Links written id)
    : later.vars.Links written id := by
  obtain ⟨rel, found, same⟩ := links
  exact ⟨rel, extends'.related found, same⟩

theorem PathLinks.extend {walk later : Walk} (extends' : walk.Extends later) {names more : Visible}
    (stay : names.StayIn more) {path : PathPattern} {ids : List VarId}
    (links : PathLinks walk.vars names path ids)
    : PathLinks later.vars more path ids := by
  obtain ⟨start, nodes, named, related⟩ := links
  exact ⟨start, nodes, named.imp fun _ _ => .stay stay, related.imp fun _ _ => .extend extends'⟩

/-- A name that is not visible yet may be given to what is declared, and is visible then. -/
theorem Walk.Declares.names {walk : Walk} {make : VarId → String × Definition}
    {declared : VarId × Walk}
    (declares : walk.Declares make declared) {name : Option String}
    (new : ∀ given ∈ name, walk.visible.get? given = none)
    : walk.visible.StayIn (declared.2.bind name declared.1).visible
      ∧ ∀ given ∈ name, (declared.2.bind name declared.1).visible.get? given = some declared.1 := by
  have same : declared.2.visible = walk.visible := by rw [declares.later]
  cases name with
  | none => exact ⟨fun found => same ▸ found, fun given isNone => by cases isNone⟩
  | some name =>
      rw [Walk.bind, same]
      refine ⟨fun {other value} found => ?_, fun given isName => ?_⟩
      · have different : other ≠ name := by
          rintro rfl
          rw [new other rfl] at found
          cases found
        rw [Visible.get?_insert, if_neg different]
        exact found
      · obtain rfl := Option.some.inj isName
        rw [Visible.get?_insert, if_pos rfl]

theorem Walk.Declares.definition? {walk : Walk} {make : VarId → String × Definition}
    {declared : VarId × Walk} (declares : walk.Declares make declared)
    : declared.2.vars.definition? declared.1 = some (make declared.1).2 := by
  rw [VarTable.definition?, declares.get?, if_pos rfl]
  rfl

namespace ClauseWalk

/-- A node of a pattern is what its name stands for then, and no relationship is declared. -/
def NamesNode (state : ClauseWalk) (pattern : NodePattern) (result : VarId × ClauseWalk) : Prop :=
  IsNamed result.2.walk.visible pattern result.1
  ∧ state.walk.visible.StayIn result.2.walk.visible
  ∧ result.2.relationships = state.relationships

/-- A node with a new name gets it. -/
theorem Begins.newNode_names {state : ClauseWalk} (begins : state.Begins) {pattern : NodePattern}
    {result : VarId × ClauseWalk} (new : ∀ name ∈ pattern.name, state.walk.visible.get? name = none)
    (succeeded : state.newNode pattern = .ok result)
    : state.NamesNode pattern result := by
  obtain ⟨conditions, -, same⟩ := bind_eq_ok.mp succeeded
  obtain rfl := Except.ok.inj same
  have declares := Walk.declare_declares begins.extends'.used (pattern.name.getD "anon_n") fun id =>
    (pattern.name.getD id, .node
      { labels := .ofList pattern.labels, restriction := Expr.conjoin conditions, required := ∅,
        binding := none })
  obtain ⟨stay, isNamed⟩ := declares.names new
  exact ⟨isNamed, stay, rfl⟩

/-- A node that is mentioned again has its name. -/
theorem mentionNode_names {state : ClauseWalk} {pattern : NodePattern} {name : String} {id : VarId}
    {result : VarId × ClauseWalk} (named : pattern.name = some name)
    (found : state.walk.visible.get? name = some id)
    (succeeded : state.mentionNode pattern name id = .ok result)
    : state.NamesNode pattern result := by
  have finish {middle : ClauseWalk} (visible : middle.walk.visible = state.walk.visible)
      (relationships : middle.relationships = state.relationships)
      (succeeded
        : (do
            let conditions ← middle.walk.propertyConditions id pattern.properties
            return (id, { middle with conditions := middle.conditions ++ conditions }))
          = Except.ok result)
      : state.NamesNode pattern result := by
    obtain ⟨conditions, -, same⟩ := bind_eq_ok.mp succeeded
    obtain rfl := Except.ok.inj same
    refine ⟨fun given isName => ?_, fun kept => visible ▸ kept, relationships⟩
    obtain rfl := Option.some.inj (named.symm.trans isName)
    exact visible ▸ found
  unfold ClauseWalk.mentionNode at succeeded
  dsimp only at succeeded
  split at succeeded
  · split at succeeded
    · exact finish rfl rfl succeeded
    · split at succeeded
      · cases succeeded
      · exact @finish (state.addLabels _ _ _) rfl rfl succeeded
  · cases succeeded
  · cases succeeded

theorem Begins.takeNode_names {state : ClauseWalk} (begins : state.Begins) {pattern : NodePattern}
    {result : VarId × ClauseWalk} (succeeded : state.takeNode pattern = .ok result)
    : state.NamesNode pattern result := by
  unfold ClauseWalk.takeNode at succeeded
  split at succeeded
  · rename_i name named
    split at succeeded
    · rename_i id found
      exact mentionNode_names named found succeeded
    · rename_i missing
      refine begins.newNode_names (fun given isName => ?_) succeeded
      obtain rfl := Option.some.inj (named.symm.trans isName)
      exact missing
  · rename_i unnamed
    refine begins.newNode_names (fun given isName => ?_) succeeded
    rw [unnamed] at isName
    cases isName

/-- The nodes of a pattern are what their names stand for, by induction over them. -/
theorem Begins.takeNodes_names {state : ClauseWalk} (begins : state.Begins)
    {patterns : List NodePattern} {result : List VarId × ClauseWalk}
    (succeeded : state.takeNodes patterns = .ok result)
    : List.Forall₂ (IsNamed result.2.walk.visible) patterns result.1
      ∧ state.walk.visible.StayIn result.2.walk.visible
      ∧ result.2.relationships = state.relationships := by
  induction patterns generalizing state result with
  | nil =>
      obtain rfl := Except.ok.inj succeeded
      exact ⟨.nil, fun found => found, rfl⟩
  | cons pattern rest ih =>
      obtain ⟨⟨id, middle⟩, taken, succeeded⟩ := bind_eq_ok.mp succeeded
      obtain ⟨⟨ids, later⟩, others, same⟩ := bind_eq_ok.mp succeeded
      obtain rfl := Except.ok.inj same
      obtain ⟨_, -, -, records⟩ := begins.takeNode taken
      obtain ⟨isNamed, stay, relationships⟩ := begins.takeNode_names taken
      obtain ⟨named, stayLater, more⟩ := ih records.begins others
      exact ⟨.cons (isNamed.stay stayLater) named, fun found => stayLater (stay found),
        more.trans relationships⟩

/-- A relationship is declared as its pattern has it, between the nodes it is given. -/
theorem Begins.takeRelationship_links {state : ClauseWalk} (begins : state.Begins)
    {pattern : RelationshipPattern} {left right : VarId} {result : VarId × ClauseWalk}
    (succeeded : state.takeRelationship pattern left right = .ok result)
    : result.2.walk.vars.Links (pattern, left, right) result.1
      ∧ state.walk.visible.StayIn result.2.walk.visible
      ∧ result.2.relationships = state.relationships ++ [result.1] := by
  unfold ClauseWalk.takeRelationship at succeeded
  split at succeeded
  · cases succeeded
  split at succeeded
  · cases succeeded
  rename_i missing
  have new : ∀ name ∈ pattern.name, state.walk.visible.get? name = none := by
    intro name isName
    rw [Option.mem_def.mp isName, Option.bind_some, Option.map_eq_none_iff] at missing
    exact missing
  obtain ⟨conditions, -, same⟩ := bind_eq_ok.mp succeeded
  obtain rfl := Except.ok.inj same
  let rel : RelationshipVar :=
    { left, right, direction := pattern.direction, types := pattern.types,
      restriction := Expr.conjoin conditions, required := ∅, binding := none }
  have declares := Walk.declare_declares begins.extends'.used (pattern.name.getD "anon_r") fun id =>
    (pattern.name.getD id, .relationship rel)
  refine ⟨⟨rel, VarTable.relationship?_eq_some.mpr ?_, rfl, rfl, rfl, rfl⟩,
    (declares.names new).1, rfl⟩
  exact (congrArg (VarTable.definition? · _) (Walk.bind_vars _ _ _)).trans declares.definition?

/-- The relationships of a pattern are declared between the nodes around them, by induction over
them.
-/
theorem Begins.takeRelationships_links {state : ClauseWalk} (begins : state.Begins) {left : VarId}
    {patterns : List (RelationshipPattern × VarId)} {result : List VarId × ClauseWalk}
    (succeeded : state.takeRelationships left patterns = .ok result)
    : List.Forall₂ result.2.walk.vars.Links (betweenNodes left patterns) result.1
      ∧ state.walk.visible.StayIn result.2.walk.visible
      ∧ result.2.relationships = state.relationships ++ result.1 := by
  induction patterns generalizing state left result with
  | nil =>
      obtain rfl := Except.ok.inj succeeded
      exact ⟨.nil, fun found => found, (List.append_nil _).symm⟩
  | cons entry rest ih =>
      obtain ⟨pattern, right⟩ := entry
      obtain ⟨⟨id, middle⟩, taken, succeeded⟩ := bind_eq_ok.mp succeeded
      obtain ⟨⟨ids, later⟩, others, same⟩ := bind_eq_ok.mp succeeded
      obtain rfl := Except.ok.inj same
      obtain ⟨_, -, -, records⟩ := begins.takeRelationship taken
      obtain ⟨_, -, -, recordsLater⟩ := records.begins.takeRelationships others
      obtain ⟨links, stay, added⟩ := begins.takeRelationship_links taken
      obtain ⟨linksLater, stayLater, more⟩ := ih records.begins others
      refine ⟨.cons (links.extend recordsLater.extends') linksLater,
        fun found => stayLater (stay found), ?_⟩
      rw [more, added, List.append_assoc]
      rfl

/-- A path gets a new name. -/
theorem newPath_names {state later : ClauseWalk} {name : String} {start : VarId}
    {hops : List (VarId × VarId)} (begins : state.Begins)
    (succeeded : state.newPath name start hops = .ok later)
    : state.walk.visible.StayIn later.walk.visible ∧ later.relationships = state.relationships := by
  unfold ClauseWalk.newPath at succeeded
  split at succeeded
  · cases succeeded
  · rename_i missing
    obtain rfl := Except.ok.inj succeeded
    have declares := Walk.declare_declares begins.extends'.used name fun _ =>
      (name, .path hops.length (elementsOf start hops))
    have new : ∀ given ∈ some name, state.walk.visible.get? given = none := by simpa using missing
    exact ⟨(declares.names new).1, rfl⟩

/-- A path pattern declares its relationships, by what is taken of it in turn. -/
theorem Begins.takePath_links {state later : ClauseWalk} (begins : state.Begins)
    {path : PathPattern}
    (succeeded : state.takePath path = .ok later)
    : ∃ ids,
        later.relationships = state.relationships ++ ids
        ∧ PathLinks later.walk.vars later.walk.visible path ids
        ∧ state.walk.visible.StayIn later.walk.visible
        ∧ later.Begins
        ∧ state.walk.Extends later.walk := by
  obtain ⟨_, -, -, records⟩ := begins.takePath succeeded
  obtain ⟨⟨start, first⟩, takenStart, succeeded⟩ := bind_eq_ok.mp succeeded
  obtain ⟨⟨nodes, second⟩, takenNodes, succeeded⟩ := bind_eq_ok.mp succeeded
  obtain ⟨⟨relationships, third⟩, takenRelationships, succeeded⟩ := bind_eq_ok.mp succeeded
  have allNodes : state.takeNodes path.nodes = .ok (start :: nodes, second) := by
    simp only [PathPattern.nodes, ClauseWalk.takeNodes, takenStart, takenNodes, Safely.ok_bind]
    rfl
  obtain ⟨named, stayNodes, same⟩ := begins.takeNodes_names allNodes
  obtain ⟨_, -, -, recordsNodes⟩ := begins.takeNodes allNodes
  obtain ⟨links, stayRelationships, added⟩ :=
    recordsNodes.begins.takeRelationships_links takenRelationships
  obtain ⟨_, -, -, recordsRelationships⟩ := recordsNodes.begins.takeRelationships takenRelationships
  have linked : PathLinks third.walk.vars third.walk.visible path relationships :=
    ⟨start, nodes, named.imp fun _ _ => .stay stayRelationships, links⟩
  have stay : state.walk.visible.StayIn third.walk.visible := fun found =>
    stayRelationships (stayNodes found)
  rw [same] at added
  dsimp only at succeeded
  split at succeeded
  · obtain ⟨stayPath, more⟩ := newPath_names recordsRelationships.begins succeeded
    have extends' := (recordsRelationships.begins.newPath succeeded).extends'
    exact ⟨relationships, more.trans added, linked.extend extends' stayPath,
      fun found => stayPath (stay found), records.begins, records.extends'⟩
  · obtain rfl := Except.ok.inj succeeded
    exact ⟨relationships, added, linked, stay, records.begins, records.extends'⟩

/-- Paths declare their relationships, by induction over them. -/
theorem Begins.takePaths_links {state later : ClauseWalk} (begins : state.Begins)
    {paths : List PathPattern} (succeeded : paths.foldlM (·.takePath ·) state = .ok later)
    : ∃ ids,
        later.relationships = state.relationships ++ ids.flatten
        ∧ List.Forall₂ (PathLinks later.walk.vars later.walk.visible) paths ids
        ∧ state.walk.visible.StayIn later.walk.visible
        ∧ state.walk.Extends later.walk := by
  induction paths generalizing state with
  | nil =>
      obtain rfl := Except.ok.inj succeeded
      exact ⟨[], (List.append_nil _).symm, .nil, fun found => found, begins.extends'⟩
  | cons path rest ih =>
      rw [List.foldlM_cons] at succeeded
      obtain ⟨middle, taken, others⟩ := bind_eq_ok.mp succeeded
      obtain ⟨own, added, links, stay, next, extends'⟩ := begins.takePath_links taken
      obtain ⟨ids, addedLater, linksLater, stayLater, extendsLater⟩ := ih next others
      refine ⟨own :: ids, ?_, .cons (links.extend extendsLater stayLater) linksLater,
        fun found => stayLater (stay found), extends'.trans extendsLater⟩
      rw [addedLater, added, List.append_assoc, List.flatten_cons]

end ClauseWalk

theorem ReadingClause.Links.extend {walk later : Walk} (extends' : walk.Extends later)
    {clause : ReadingClause} {written : MatchClause} (links : clause.Links walk.vars written)
    : clause.Links later.vars written := by
  obtain ⟨optional, names, ids, same, paths⟩ := links
  exact ⟨optional, names, ids, same, paths.imp fun _ _ => .extend extends' fun found => found⟩

/-- The `MATCH` clauses of a query. -/
def matchesOf (clauses : List Cypher.Clause) : List MatchClause :=
  clauses.filterMap fun
    | .matching clause => some clause
    | _ => none

namespace Walk

variable {walk later : Walk}

/-- A `MATCH` adds a clause with the relationships of its patterns. -/
theorem takeMatch_links (used : ∀ {id}, (walk.vars.get? id).isSome → id ∈ walk.naming.used)
    {clause : MatchClause} (succeeded : walk.takeMatch clause = .ok later)
    : ∃ reading, later.clauses = walk.clauses ++ [reading] ∧ reading.Links later.vars clause := by
  obtain ⟨state, taken, succeeded⟩ := bind_eq_ok.mp succeeded
  have taken : clause.patterns.foldlM (·.takePath ·) walk.between = .ok state := taken
  obtain ⟨ids, added, links, -, -⟩ := (begins_between used).takePaths_links taken
  obtain ⟨_, -, -, records⟩ := (begins_between used).takePaths taken
  dsimp only at succeeded
  split at succeeded
  · obtain ⟨condition, -, same⟩ := bind_eq_ok.mp succeeded
    obtain rfl := Except.ok.inj same
    exact ⟨_, congrArg (· ++ _) records.clauses, rfl, _, ids, added, links⟩
  · obtain rfl := Except.ok.inj succeeded
    exact ⟨_, congrArg (· ++ _) records.clauses, rfl, _, ids, added, links⟩

/-- The clauses of the scopes of a query have the relationships of its patterns, by induction over
the clauses of the query.
-/
theorem takeClauses_links (used : ∀ {id}, (walk.vars.get? id).isSome → id ∈ walk.naming.used)
    {written : List MatchClause}
    (links : List.Forall₂ (ReadingClause.Links walk.vars) walk.clauses written)
    {clauses : List Cypher.Clause} (succeeded : walk.takeClauses false clauses = .ok later)
    : ∃ models,
        later.models = walk.models ++ models
        ∧ List.Forall₂ (ReadingClause.Links later.vars) (models.flatMap (·.clauses))
            (written ++ matchesOf clauses)
        ∧ walk.Extends later := by
  induction clauses generalizing walk written with
  | nil => cases succeeded
  | cons clause rest ih =>
      cases clause with
      | matching clause =>
          obtain ⟨middle, taken, succeeded⟩ := bind_eq_ok.mp succeeded
          obtain ⟨reading, added, own⟩ := takeMatch_links used taken
          obtain ⟨_, _, -, -, -, extends', same, -⟩ := takeMatch_holds used taken
          have all
              : List.Forall₂ (ReadingClause.Links middle.vars) middle.clauses
                (written ++ [clause]) := by
            rw [added]
            exact List.rel_append (links.imp fun _ _ => .extend extends') (.cons own .nil)
          obtain ⟨models, sameModels, linksLater, extendsLater⟩ := ih extends'.used all succeeded
          refine ⟨models, same ▸ sameModels, ?_, extends'.trans extendsLater⟩
          rwa [List.append_assoc] at linksLater
      | withItems projection condition =>
          obtain ⟨middle, taken, succeeded⟩ := bind_eq_ok.mp succeeded
          obtain ⟨extends', ⟨model, added, sameClauses, -⟩, none, -, -⟩ :=
            closeScope_holds used taken
          have opened : List.Forall₂ (ReadingClause.Links middle.vars) middle.clauses [] := by
            rw [none]
            exact .nil
          obtain ⟨models, sameModels, linksLater, extendsLater⟩ := ih extends'.used opened succeeded
          refine ⟨model :: models, ?_, ?_, extends'.trans extendsLater⟩
          · rw [sameModels, added, List.append_assoc]
            rfl
          · rw [List.flatMap_cons, sameClauses]
            exact List.rel_append
              (links.imp fun _ _ => .extend (extends'.trans extendsLater)) linksLater
      | returnItems projection =>
          obtain ⟨middle, taken, succeeded⟩ := bind_eq_ok.mp succeeded
          obtain ⟨extends', ⟨model, added, sameClauses, -⟩, -, -, -⟩ := closeScope_holds used taken
          cases rest with
          | cons _ _ => cases succeeded
          | nil =>
              obtain rfl := Except.ok.inj succeeded
              refine ⟨[model], added, ?_, extends'⟩
              rw [List.flatMap_singleton, sameClauses, show matchesOf _ = [] from rfl,
                List.append_nil]
              exact links.imp fun _ _ => .extend extends'

end Walk

/-- The relationships of the collected clauses of a query are those of its patterns: clause by
clause, path by path and hop by hop, each has the direction and the types of its pattern and lies
between the nodes that are written on either side of it.
-/
theorem collect_links {query : Cypher.Query} {walk : Walk} (collected : collect query = .ok walk)
    : List.Forall₂ (ReadingClause.Links walk.vars) (walk.models.flatMap (·.clauses))
        (matchesOf query.clauses) := by
  have none (id : VarId) : Walk.start.vars.get? id = none := NameMap.get?_empty id
  obtain ⟨models, same, links, -⟩ :=
    @Walk.takeClauses_links Walk.start _ (by simp [none]) [] .nil _ collected
  rw [same]
  exact links

end CypherSql.Plan
