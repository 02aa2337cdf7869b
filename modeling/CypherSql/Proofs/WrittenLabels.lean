import CypherSql.Proofs.Refinement

/-! The labels of a query as they are written: those of each node pattern, for the node that the
pattern stands for. The walk over the clauses collects them, so that every node has the labels that
are written for it and no others.
-/

namespace CypherSql.Plan

open Cypher (NodePattern RelationshipPattern PathPattern MatchClause Projection ProjectionItem)

namespace ClauseWalk

/-- The labels of node patterns, each with the node that it is written for. -/
def nodeLabels (state : ClauseWalk)
    : List NodePattern → Except LoweringError (List (VarId × String))
  | [] => .ok []
  | pattern :: rest => do
      let (id, later) ← state.takeNode pattern
      let others ← later.nodeLabels rest
      return pattern.labels.map (state.walk.vars.resolve id, ·) ++ others

/-- The labels of several paths. -/
def pathLabels (state : ClauseWalk)
    : List PathPattern → Except LoweringError (List (VarId × String))
  | [] => .ok []
  | path :: rest => do
      let own ← state.nodeLabels path.nodes
      let later ← state.takePath path
      let others ← later.pathLabels rest
      return own ++ others

end ClauseWalk

/-- The labels of the `MATCH` clauses among clauses. -/
def Walk.clauseLabels (walk : Walk)
    : List Cypher.Clause → Except LoweringError (List (VarId × String))
  | [] => .ok []
  | .matching clause :: rest => do
      let own ← walk.between.pathLabels clause.patterns
      let walk ← walk.takeMatch clause
      let others ← walk.clauseLabels rest
      return own ++ others
  | .withItems projection condition :: rest => do
      let walk ← walk.closeScope .withClause projection condition
      walk.clauseLabels rest
  | .returnItems _ :: _ => .ok []

/-- The labels that a query writes, each with the node that it is written for. -/
def writtenLabels (query : Cypher.Query) : Except LoweringError (List (VarId × String)) :=
  Walk.start.clauseLabels query.clauses

/-- The labels of a variable; only nodes have any. -/
def VarTable.labels (vars : VarTable) (id : VarId) : NameSet :=
  ((vars.definition? id).bind Definition.labels?).getD ∅

theorem VarTable.labels_of_node {vars : VarTable} {id : VarId} {node : NodeVar}
    (found : vars.node? id = some node)
    : vars.labels id = node.labels := by
  rw [VarTable.labels, VarTable.node?_eq_some.mp found]
  rfl

/-- The labels in a table whose variables are known by used names are the written ones. -/
structure Walk.Collects (walk : Walk) (written : List (VarId × String)) : Prop where
  used : ∀ {id}, (walk.vars.get? id).isSome → id ∈ walk.naming.used
  labels : ∀ id label, label ∈ walk.vars.labels id ↔ (id, label) ∈ written

namespace Walk.Collects

variable {walk later : Walk} {written : List (VarId × String)}

theorem bind (collects : walk.Collects written) (name : Option String) (id : VarId)
    : (walk.bind name id).Collects written := by
  cases name with
  | none => exact collects
  | some name => exact ⟨collects.used, collects.labels⟩

/-- A declared node brings the labels of its pattern, and any other variable none. -/
theorem declare (collects : walk.Collects written) {make : VarId → String × Definition}
    {declared : VarId × Walk} (declares : walk.Declares make declared) (labels : List String)
    (made : ∀ label, label ∈ ((make declared.1).2.labels?.getD ∅) ↔ label ∈ labels)
    : declared.2.Collects (written ++ labels.map (declared.1, ·)) := by
  refine ⟨fun {id} present => ?_, fun id label => ?_⟩
  · rw [declares.get?] at present
    rw [declares.used]
    split at present
    · exact .inl ‹_›
    · exact .inr (collects.used present)
  · rw [VarTable.labels, VarTable.definition?, declares.get?, List.mem_append, ← collects.labels]
    split
    · rename_i same
      subst same
      have none : walk.vars.labels declared.1 = ∅ := by
        rw [VarTable.labels, VarTable.definition?, declares.new]
        rfl
      simp [made, none]
    · rename_i different
      have same : label ∈ walk.vars.labels id
          ↔ label ∈ (((walk.vars.get? id).map (·.definition)).bind Definition.labels?).getD ∅ :=
            Iff.rfl
      simp [same, Ne.symm different]

/-- A declaration of anything but a node brings no labels. -/
theorem declareOther (collects : walk.Collects written) (base : String)
    (make : VarId → String × Definition) (other : ∀ id, (make id).2.labels? = none)
    : (walk.declare base make).2.Collects written := by
  have declared := collects.declare (Walk.declare_declares collects.used base make) []
    (by simp [other])
  simpa using declared

end Walk.Collects

namespace ClauseWalk

variable {state later : ClauseWalk} {written : List (VarId × String)}

/-- Labels may be added to a node. -/
theorem collects_addLabels (collects : state.walk.Collects written) {id : VarId} {var : Variable}
    {node : NodeVar} (found : state.walk.vars.get? id = some var)
    (kind : var.definition = .node node) (labels : List String)
    : (state.addLabels id node labels).walk.Collects (written ++ labels.map (id, ·)) := by
  have own : state.walk.vars.labels id = node.labels := by
    rw [VarTable.labels, VarTable.definition?_of_get? found, kind]
    rfl
  refine ⟨fun {other} present => ?_, fun other label => ?_⟩
  · apply collects.used
    simp only [ClauseWalk.addLabels, VarTable.get?_redefine] at present
    by_cases same : other = id
    · simp [same, found]
    · simpa [same] using present
  · rw [List.mem_append, ← collects.labels]
    by_cases same : other = id
    · subst same
      rw [own]
      simp [ClauseWalk.addLabels, VarTable.labels, VarTable.definition?,
        VarTable.get?_redefine, found, Definition.labels?, or_comm]
    · simp [ClauseWalk.addLabels, VarTable.labels, VarTable.definition?,
        VarTable.get?_redefine, same, Ne.symm same]

/-- A new node has the labels of its pattern. -/
theorem collects_newNode (collects : state.walk.Collects written) {pattern : NodePattern}
    {result : VarId × ClauseWalk} (succeeded : state.newNode pattern = .ok result)
    : result.2.walk.Collects
        (written ++ pattern.labels.map (state.walk.vars.resolve result.1, ·)) := by
  obtain ⟨conditions, -, same⟩ := bind_eq_ok.mp succeeded
  obtain rfl := Except.ok.inj same
  have declares := Walk.declare_declares collects.used (pattern.name.getD "anon_n") fun id =>
    (pattern.name.getD id, .node
      { labels := .ofList pattern.labels, restriction := Expr.conjoin conditions, required := ∅,
        binding := none })
  have itself := VarTable.Ordered.resolve_of_get?_none declares.new
  have declared := collects.declare declares pattern.labels (by simp [Definition.labels?])
  rw [← itself] at declared
  exact declared.bind pattern.name _

/-- A node that is mentioned again has the labels of the pattern from then on. -/
theorem collects_mentionNode (collects : state.walk.Collects written) {pattern : NodePattern}
    {name : String} {id : VarId} {result : VarId × ClauseWalk}
    (succeeded : state.mentionNode pattern name id = .ok result)
    : result.2.walk.Collects
        (written ++ pattern.labels.map (state.walk.vars.resolve result.1, ·)) := by
  have finish {middle : ClauseWalk}
      (collects : middle.walk.Collects
        (written ++ pattern.labels.map (state.walk.vars.resolve id, ·)))
      (succeeded
        : (do
            let conditions ← middle.walk.propertyConditions id pattern.properties
            return (id, { middle with conditions := middle.conditions ++ conditions }))
          = Except.ok result)
      : result.2.walk.Collects
          (written ++ pattern.labels.map (state.walk.vars.resolve result.1, ·)) := by
    obtain ⟨conditions, -, same⟩ := bind_eq_ok.mp succeeded
    obtain rfl := Except.ok.inj same
    exact collects
  unfold ClauseWalk.mentionNode at succeeded
  dsimp only at succeeded
  split at succeeded
  · rename_i scope node found
    have isNode : state.walk.vars.node? (state.walk.vars.resolve id) = some node :=
      VarTable.node?_eq_some.mpr (VarTable.definition?_of_get? found)
    have known (label : String)
        : label ∈ node.labels ↔ (state.walk.vars.resolve id, label) ∈ written := by
      rw [← collects.labels, VarTable.labels_of_node isNode]
    -- The labels that are not there yet are added; those that are there are written already.
    have added {middle : ClauseWalk}
        (collects : middle.walk.Collects (written
          ++ (pattern.labels.filter (· ∉ node.labels)).map (state.walk.vars.resolve id, ·)))
        : middle.walk.Collects
            (written ++ pattern.labels.map (state.walk.vars.resolve id, ·)) := by
      refine ⟨collects.used, fun other label => (collects.labels other label).trans ?_⟩
      simp only [List.mem_append, List.mem_map, List.mem_filter, Prod.mk.injEq, decide_not,
        Bool.not_eq_true', decide_eq_false_iff_not]
      constructor
      · rintro (old | ⟨label, ⟨inPattern, -⟩, rfl, rfl⟩)
        · exact .inl old
        · exact .inr ⟨label, inPattern, rfl, rfl⟩
      · rintro (old | ⟨label, inPattern, rfl, rfl⟩)
        · exact .inl old
        · by_cases present : label ∈ node.labels
          · exact .inl ((known label).mp present)
          · exact .inr ⟨label, ⟨inPattern, present⟩, rfl, rfl⟩
    split at succeeded
    · rename_i none
      refine finish (added ?_) succeeded
      rw [List.isEmpty_iff.mp none]
      simpa using collects
    · split at succeeded
      · cases succeeded
      · exact finish (added (collects_addLabels collects found rfl _)) succeeded
  · cases succeeded
  · cases succeeded

theorem collects_takeNode (collects : state.walk.Collects written) {pattern : NodePattern}
    {result : VarId × ClauseWalk} (succeeded : state.takeNode pattern = .ok result)
    : result.2.walk.Collects
        (written ++ pattern.labels.map (state.walk.vars.resolve result.1, ·)) := by
  unfold ClauseWalk.takeNode at succeeded
  split at succeeded
  · split at succeeded
    · exact collects_mentionNode collects succeeded
    · exact collects_newNode collects succeeded
  · exact collects_newNode collects succeeded

/-- Nodes bring the labels of their patterns, by induction over them. -/
theorem collects_takeNodes (collects : state.walk.Collects written) {patterns : List NodePattern}
    {result : List VarId × ClauseWalk} (succeeded : state.takeNodes patterns = .ok result)
    : ∃ own, state.nodeLabels patterns = .ok own ∧ result.2.walk.Collects (written ++ own) := by
  induction patterns generalizing state written result with
  | nil =>
      obtain rfl := Except.ok.inj succeeded
      exact ⟨[], rfl, by simpa using collects⟩
  | cons pattern rest ih =>
      obtain ⟨⟨id, middle⟩, taken, succeeded⟩ := bind_eq_ok.mp succeeded
      obtain ⟨⟨ids, later⟩, others, same⟩ := bind_eq_ok.mp succeeded
      obtain rfl := Except.ok.inj same
      obtain ⟨more, isWritten, collectsAll⟩ := ih (collects_takeNode collects taken) others
      refine ⟨_, ?_, by rwa [List.append_assoc] at collectsAll⟩
      simp only [nodeLabels, taken, isWritten, Safely.ok_bind]
      rfl

/-- A relationship has no labels. -/
theorem collects_takeRelationship (collects : state.walk.Collects written)
    {pattern : RelationshipPattern} {left right : VarId} {result : VarId × ClauseWalk}
    (succeeded : state.takeRelationship pattern left right = .ok result)
    : result.2.walk.Collects written := by
  unfold ClauseWalk.takeRelationship at succeeded
  split at succeeded
  · cases succeeded
  · split at succeeded
    · cases succeeded
    · obtain ⟨conditions, -, same⟩ := bind_eq_ok.mp succeeded
      obtain rfl := Except.ok.inj same
      have declared := collects.declareOther (pattern.name.getD "anon_r") (fun id =>
        (pattern.name.getD id, .relationship
          { left, right, direction := pattern.direction, types := pattern.types,
            restriction := Expr.conjoin conditions, required := ∅, binding := none })) fun _ => rfl
      exact declared.bind pattern.name _

theorem collects_takeRelationships (collects : state.walk.Collects written) {left : VarId}
    {patterns : List (RelationshipPattern × VarId)} {result : List VarId × ClauseWalk}
    (succeeded : state.takeRelationships left patterns = .ok result)
    : result.2.walk.Collects written := by
  induction patterns generalizing state left result with
  | nil =>
      obtain rfl := Except.ok.inj succeeded
      exact collects
  | cons entry rest ih =>
      obtain ⟨⟨id, middle⟩, taken, succeeded⟩ := bind_eq_ok.mp succeeded
      obtain ⟨⟨ids, later⟩, others, same⟩ := bind_eq_ok.mp succeeded
      obtain rfl := Except.ok.inj same
      have collectsAll := ih (collects_takeRelationship collects taken) others
      exact collectsAll

/-- The name of a path has no labels. -/
theorem collects_newPath (collects : state.walk.Collects written) {name : String} {start : VarId}
    {hops : List (VarId × VarId)} (succeeded : state.newPath name start hops = .ok later)
    : later.walk.Collects written := by
  unfold ClauseWalk.newPath at succeeded
  split at succeeded
  · cases succeeded
  · obtain rfl := Except.ok.inj succeeded
    have declared := collects.declareOther name
      (fun _ => (name, .path hops.length (elementsOf start hops))) fun _ => rfl
    exact declared.bind (some name) _

/-- A path brings the labels of its nodes. -/
theorem collects_takePath (collects : state.walk.Collects written) {path : PathPattern}
    (succeeded : state.takePath path = .ok later)
    : ∃ own, state.nodeLabels path.nodes = .ok own ∧ later.walk.Collects (written ++ own) := by
  obtain ⟨⟨start, first⟩, takenStart, succeeded⟩ := bind_eq_ok.mp succeeded
  obtain ⟨⟨nodes, second⟩, takenNodes, succeeded⟩ := bind_eq_ok.mp succeeded
  obtain ⟨⟨relationships, third⟩, takenRelationships, succeeded⟩ := bind_eq_ok.mp succeeded
  have allNodes : state.takeNodes path.nodes = .ok (start :: nodes, second) := by
    simp only [PathPattern.nodes, ClauseWalk.takeNodes, takenStart, takenNodes, Safely.ok_bind]
    rfl
  obtain ⟨own, isWritten, collectsNodes⟩ := collects_takeNodes collects allNodes
  have collectsAll := collects_takeRelationships collectsNodes takenRelationships
  refine ⟨own, isWritten, ?_⟩
  dsimp only at succeeded
  split at succeeded
  · exact collects_newPath collectsAll succeeded
  · obtain rfl := Except.ok.inj succeeded
    exact collectsAll

/-- Paths bring the labels of their nodes, by induction over them. -/
theorem collects_takePaths (collects : state.walk.Collects written) {paths : List PathPattern}
    (succeeded : paths.foldlM (·.takePath ·) state = .ok later)
    : ∃ own, state.pathLabels paths = .ok own ∧ later.walk.Collects (written ++ own) := by
  induction paths generalizing state written with
  | nil =>
      obtain rfl := Except.ok.inj succeeded
      exact ⟨[], rfl, by simpa using collects⟩
  | cons path rest ih =>
      rw [List.foldlM_cons] at succeeded
      obtain ⟨middle, taken, others⟩ := bind_eq_ok.mp succeeded
      obtain ⟨own, isWritten, collectsOwn⟩ := collects_takePath collects taken
      obtain ⟨more, isWrittenMore, collectsAll⟩ := ih collectsOwn others
      refine ⟨own ++ more, ?_, by rwa [List.append_assoc] at collectsAll⟩
      simp only [pathLabels, taken, isWritten, isWrittenMore, Safely.ok_bind]
      rfl

end ClauseWalk

namespace Walk

variable {walk later : Walk} {written : List (VarId × String)}

/-- A `MATCH` brings the labels of its patterns. -/
theorem collects_takeMatch (collects : walk.Collects written) {clause : MatchClause}
    (succeeded : walk.takeMatch clause = .ok later)
    : ∃ own, walk.between.pathLabels clause.patterns = .ok own ∧ later.Collects
      (written ++ own) := by
  obtain ⟨state, taken, succeeded⟩ := bind_eq_ok.mp succeeded
  have taken : clause.patterns.foldlM (·.takePath ·) walk.between = .ok state := taken
  obtain ⟨own, isWritten, collectsAll⟩ := ClauseWalk.collects_takePaths collects taken
  refine ⟨own, isWritten, ?_⟩
  cases condition : clause.condition with
  | none =>
      rw [condition] at succeeded
      obtain rfl := Except.ok.inj succeeded
      exact ⟨collectsAll.used, collectsAll.labels⟩
  | some expr =>
      rw [condition] at succeeded
      obtain ⟨resolved, -, same⟩ := bind_eq_ok.mp succeeded
      obtain rfl := Except.ok.inj same
      exact ⟨collectsAll.used, collectsAll.labels⟩

/-- The items of a projection bring no labels, by induction over them. -/
theorem collects_takeItems (collects : walk.Collects written) {kind : ScopeKind} {next : Visible}
    {items : List ProjectionItem} {result : List Item × Visible × Walk}
    (succeeded : walk.takeItems kind next items = .ok result)
    : result.2.2.Collects written := by
  induction items generalizing walk next result with
  | nil =>
      obtain rfl := Except.ok.inj succeeded
      exact collects
  | cons item rest ih =>
      obtain ⟨⟨first, visible, middle⟩, taken, succeeded⟩ := bind_eq_ok.mp succeeded
      obtain ⟨⟨others, last, final⟩, takenRest, same⟩ := bind_eq_ok.mp succeeded
      obtain rfl := Except.ok.inj same
      obtain ⟨base, name, definition, projects, same⟩ := takeItem_declares taken
      have other : definition.labels? = none := by
        rcases projects with ⟨expr, rfl⟩ | ⟨column, rfl⟩
        · rfl
        · rfl
      have collectsMiddle : middle.Collects written := by
        rw [show middle = _ from same]
        exact collects.declareOther base _ fun _ => other
      have collectsAll := ih collectsMiddle takenRest
      exact collectsAll

/-- A projection brings no labels. -/
theorem collects_closeScope (collects : walk.Collects written) {kind : ScopeKind}
    {projection : Projection} {condition : Option Cypher.Expr}
    (succeeded : walk.closeScope kind projection condition = .ok later)
    : later.Collects written := by
  obtain ⟨⟨items, next, middle⟩, taken, succeeded⟩ := bind_eq_ok.mp succeeded
  have collectsItems := collects_takeItems collects taken
  obtain ⟨orderBy, -, succeeded⟩ := bind_eq_ok.mp succeeded
  obtain ⟨skip, -, succeeded⟩ := bind_eq_ok.mp succeeded
  obtain ⟨limit, -, succeeded⟩ := bind_eq_ok.mp succeeded
  obtain ⟨filter, -, same⟩ := bind_eq_ok.mp succeeded
  obtain rfl := Except.ok.inj same
  exact ⟨collectsItems.used, collectsItems.labels⟩

/-- The clauses of a query bring the labels of its patterns, by induction over them. -/
theorem collects_takeClauses (collects : walk.Collects written) {clauses : List Cypher.Clause}
    (succeeded : walk.takeClauses false clauses = .ok later)
    : ∃ own, walk.clauseLabels clauses = .ok own ∧ later.Collects (written ++ own) := by
  induction clauses generalizing walk written with
  | nil => cases succeeded
  | cons clause rest ih =>
      cases clause with
      | matching clause =>
          obtain ⟨middle, taken, succeeded⟩ := bind_eq_ok.mp succeeded
          obtain ⟨own, isWritten, collectsOwn⟩ := collects_takeMatch collects taken
          obtain ⟨more, isWrittenMore, collectsAll⟩ := ih collectsOwn succeeded
          refine ⟨own ++ more, ?_, by rwa [List.append_assoc] at collectsAll⟩
          simp only [clauseLabels, taken, isWritten, isWrittenMore, Safely.ok_bind]
          rfl
      | withItems projection condition =>
          obtain ⟨middle, taken, succeeded⟩ := bind_eq_ok.mp succeeded
          obtain ⟨own, isWritten, collectsAll⟩ := ih (collects_closeScope collects taken) succeeded
          refine ⟨own, ?_, collectsAll⟩
          simpa only [clauseLabels, taken, Safely.ok_bind] using isWritten
      | returnItems projection =>
          obtain ⟨middle, taken, succeeded⟩ := bind_eq_ok.mp succeeded
          have collectsAll := collects_closeScope collects taken
          cases rest with
          | cons _ _ => cases succeeded
          | nil =>
              obtain rfl := Except.ok.inj succeeded
              exact ⟨[], rfl, by simpa using collectsAll⟩

end Walk

/-- The nodes of a query have the labels that are written for them. -/
theorem collect_labels {query : Cypher.Query} {walk : Walk} (collected : collect query = .ok walk)
    : ∃ written,
        writtenLabels query = .ok written
        ∧ ∀ id label, label ∈ walk.vars.labels id ↔ (id, label) ∈ written := by
  have none (id : VarId) : Walk.start.vars.get? id = none := NameMap.get?_empty id
  have begins : Walk.start.Collects [] := by
    refine ⟨by simp [none], fun id label => ?_⟩
    simp [VarTable.labels, VarTable.definition?, none]
  obtain ⟨written, isWritten, collects⟩ := Walk.collects_takeClauses begins collected
  exact ⟨written, isWritten, collects.labels⟩

end CypherSql.Plan
