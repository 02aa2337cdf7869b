import CypherSql.Proofs.Integrity.Collection
import CypherSql.Proofs.Sharing.Walks

/-! Queries that differ only in parts of patterns without a name: walks take each named part in
order and what has no name in between, and the walks over the clauses agree.
-/

namespace CypherSql.Plan

open Cypher (NodePattern RelationshipPattern PathPattern MatchClause)

namespace ClauseWalk

variable {state later : ClauseWalk}

/-- More labels for a node change nothing that is shared. -/
theorem hides_addLabels {id : VarId} {var : Variable} {node : NodeVar}
    (found : state.walk.vars.get? id = some var) (kind : var.definition = .node node)
    (labels : List String)
    : state.walk.Hides (state.addLabels id node labels).walk := by
  have get? (other : VarId)
      : (state.addLabels id node labels).walk.vars.get? other
        = if other = id then
            some { var with
              definition := .node { node with labels := node.labels.insertAll labels } }
          else state.walk.vars.get? other :=
    VarTable.get?_redefine_of_get? found other
  refine ⟨⟨fun other _ => ?_, fun _ _ => Iff.rfl, rfl, rfl, rfl⟩, fun plain => ?_⟩
  · rw [get?]
    split
    · rename_i same
      rw [same, found, Option.map_some, Option.map_some]
      simp only [Variable.shape, kind]
      rfl
    · rfl
  · refine ⟨⟨?_, ?_, ?_⟩, plain.visible, plain.models⟩
    · intro other var present projecting
      rw [get?] at present
      split at present
      · obtain rfl := Option.some.inj present
        exact absurd rfl projecting
      · exact plain.vars.written present projecting
    · intro other var expr present projects
      rw [get?] at present
      split at present
      · obtain rfl := Option.some.inj present
        cases projects
      · exact plain.vars.within present projects
    · intro other var hops elements first present written isPath isFirst
      rw [get?] at present
      split at present
      · obtain rfl := Option.some.inj present
        cases isPath
      · exact plain.vars.starts present written isPath isFirst

/-- Mentioning a node again changes nothing that is shared. -/
theorem hides_mentionNode {pattern : NodePattern} {name : String} {id : VarId}
    {result : VarId × ClauseWalk} (succeeded : state.mentionNode pattern name id = .ok result)
    : result.1 = id ∧ state.walk.Hides result.2.walk := by
  have finish {middle : ClauseWalk} (hides : state.walk.Hides middle.walk)
      (succeeded
        : (do
            let conditions ← middle.walk.propertyConditions id pattern.properties
            return (id, { middle with conditions := middle.conditions ++ conditions }))
          = Except.ok result)
      : result.1 = id ∧ state.walk.Hides result.2.walk := by
    obtain ⟨conditions, -, same⟩ := bind_eq_ok.mp succeeded
    obtain rfl := Except.ok.inj same
    exact ⟨rfl, hides⟩
  unfold ClauseWalk.mentionNode at succeeded
  dsimp only at succeeded
  split at succeeded
  · rename_i found
    split at succeeded
    · exact finish (.refl _) succeeded
    · split at succeeded
      · cases succeeded
      · exact finish (hides_addLabels found rfl _) succeeded
  · cases succeeded
  · cases succeeded

/-- A new node is declared under its name, or under a generated one. -/
theorem takes_newNode {pattern : NodePattern} {result : VarId × ClauseWalk}
    (new : ∀ name, pattern.name = some name → state.walk.visible.get? name = none)
    (succeeded : state.newNode pattern = .ok result)
    : state.walk.Takes (pattern.name.toList.map .node) result.2.walk
      ∧ ∀ name, pattern.name = some name → result.2.walk.visible.get? name = some result.1 := by
  obtain ⟨conditions, -, same⟩ := bind_eq_ok.mp succeeded
  obtain rfl := Except.ok.inj same
  have hidden : ¬ Written "anon_n" := by decide
  have takes := Walk.takes_declare hidden .node
    (fun id => (pattern.name.getD id, .node
      { labels := .ofList pattern.labels, restriction := Expr.conjoin conditions, required := ∅,
        binding := none }))
    new (fun _ => rfl) (fun _ _ => rfl) fun _ => ⟨rfl, rfl⟩
  exact ⟨takes, fun name named => by simp [named, Walk.bind, Visible.get?_insert]⟩

/-- A node of a pattern is taken by its name, which stands for it then. -/
theorem takes_takeNode {pattern : NodePattern} {result : VarId × ClauseWalk}
    (succeeded : state.takeNode pattern = .ok result)
    : state.walk.Takes (pattern.name.toList.map .node) result.2.walk
      ∧ ∀ name, pattern.name = some name → result.2.walk.visible.get? name = some result.1 := by
  unfold ClauseWalk.takeNode at succeeded
  split at succeeded
  · rename_i name named
    split at succeeded
    · rename_i id found
      obtain ⟨sameId, hides⟩ := hides_mentionNode succeeded
      rw [named]
      refine ⟨.part (.mentioned (by simp [NamedPart.name, found]) hides) (.refl _), ?_⟩
      rintro _ ⟨rfl⟩
      rw [← hides.shares.visible, found, sameId]
    · rename_i absent
      refine takes_newNode ?_ succeeded
      rintro _ same
      rw [named] at same
      exact Option.some.inj same ▸ absent
  · rename_i unnamed
    exact takes_newNode (by simp [unnamed]) succeeded

/-- Nodes are taken by their names, by induction over them. -/
theorem takes_takeNodes {patterns : List NodePattern} {result : List VarId × ClauseWalk}
    (succeeded : state.takeNodes patterns = .ok result)
    : state.walk.Takes ((patterns.filterMap (·.name)).map .node) result.2.walk
      ∧ result.1.length = patterns.length := by
  induction patterns generalizing state result with
  | nil =>
      obtain rfl := Except.ok.inj succeeded
      exact ⟨.refl _, rfl⟩
  | cons pattern rest ih =>
      obtain ⟨⟨id, middle⟩, taken, succeeded⟩ := bind_eq_ok.mp succeeded
      obtain ⟨⟨ids, later⟩, others, same⟩ := bind_eq_ok.mp succeeded
      obtain rfl := Except.ok.inj same
      obtain ⟨takesRest, length⟩ := ih others
      have takes := (takes_takeNode taken).1.append takesRest
      refine ⟨?_, congrArg (· + 1) length⟩
      rw [← List.map_append] at takes
      cases named : pattern.name <;> simpa [named] using takes

/-- A relationship is declared under its name, or under a generated one. -/
theorem takes_takeRelationship {pattern : RelationshipPattern} {left right : VarId}
    {result : VarId × ClauseWalk}
    (succeeded : state.takeRelationship pattern left right = .ok result)
    : state.walk.Takes (pattern.name.toList.map .relationship) result.2.walk := by
  unfold ClauseWalk.takeRelationship at succeeded
  split at succeeded
  · cases succeeded
  · split at succeeded
    · cases succeeded
    · rename_i unseen
      obtain ⟨conditions, -, same⟩ := bind_eq_ok.mp succeeded
      obtain rfl := Except.ok.inj same
      have hidden : ¬ Written "anon_r" := by decide
      exact Walk.takes_declare hidden .relationship
        (fun id => (pattern.name.getD id, .relationship
          { left, right, direction := pattern.direction, types := pattern.types,
            restriction := Expr.conjoin conditions, required := ∅, binding := none }))
        (fun name named => by rwa [named, Option.bind_some, Option.map_eq_none_iff] at unseen)
        (fun _ => rfl) (fun _ _ => rfl) fun _ => ⟨rfl, rfl⟩

/-- Relationships are taken by their names, by induction over them. -/
theorem takes_takeRelationships {left : VarId} {patterns : List (RelationshipPattern × VarId)}
    {result : List VarId × ClauseWalk}
    (succeeded : state.takeRelationships left patterns = .ok result)
    : state.walk.Takes ((patterns.filterMap (·.1.name)).map .relationship) result.2.walk
      ∧ result.1.length = patterns.length := by
  induction patterns generalizing state left result with
  | nil =>
      obtain rfl := Except.ok.inj succeeded
      exact ⟨.refl _, rfl⟩
  | cons entry rest ih =>
      obtain ⟨⟨id, middle⟩, taken, succeeded⟩ := bind_eq_ok.mp succeeded
      obtain ⟨⟨ids, later⟩, others, same⟩ := bind_eq_ok.mp succeeded
      obtain rfl := Except.ok.inj same
      obtain ⟨takesRest, length⟩ := ih others
      have takes := (takes_takeRelationship taken).append takesRest
      refine ⟨?_, congrArg (· + 1) length⟩
      rw [← List.map_append] at takes
      cases named : entry.1.name <;> simpa [named] using takes

/-- A path is taken by its named parts, if it starts at a node with a name where it has a name
itself.
-/
theorem takes_takePath {path : PathPattern}
    (anchored : path.name.isSome = true → path.start.name.isSome = true)
    (succeeded : state.takePath path = .ok later)
    : state.walk.Takes (namedParts path) later.walk := by
  obtain ⟨⟨start, first⟩, takenStart, succeeded⟩ := bind_eq_ok.mp succeeded
  obtain ⟨⟨nodes, second⟩, takenNodes, succeeded⟩ := bind_eq_ok.mp succeeded
  obtain ⟨⟨relationships, third⟩, takenRelationships, succeeded⟩ := bind_eq_ok.mp succeeded
  obtain ⟨takesStart, isStart⟩ := takes_takeNode takenStart
  obtain ⟨takesNodes, length⟩ := takes_takeNodes takenNodes
  obtain ⟨takesRelationships, lengthRelationships⟩ := takes_takeRelationships takenRelationships
  have sameLength : path.relationships.length = nodes.length := by
    rw [length]
    simp [PathPattern.relationships]
  have names : (path.relationships.zip nodes).filterMap (·.1.name)
      = path.relationships.filterMap (·.name) := by
    conv => rhs; rw [← List.map_fst_zip (Nat.le_of_eq sameLength), List.filterMap_map]
    rfl
  have takes := (takesStart.append takesNodes).append takesRelationships
  rw [names] at takes
  have elements : (path.name.toList.map fun name =>
        NamedPart.path name path.hops.length path.start.name)
      = path.name.toList.map fun name =>
        .path name (relationships.zip nodes).length path.start.name := by
    simp [lengthRelationships, ← sameLength, PathPattern.relationships]
  have startNames : (path.nodes.filterMap (·.name)).map NamedPart.node
      = path.start.name.toList.map .node
        ++ ((path.hops.map (·.2)).filterMap (·.name)).map .node := by
    cases named : path.start.name <;> simp [PathPattern.nodes, named]
  rw [namedParts, startNames, elements]
  refine takes.append ?_
  dsimp only at succeeded
  cases named : path.name with
  | none =>
      rw [named] at succeeded
      obtain rfl := Except.ok.inj succeeded
      exact .refl _
  | some name =>
      rw [named] at succeeded
      dsimp only at succeeded
      unfold ClauseWalk.newPath at succeeded
      split at succeeded
      · cases succeeded
      · rename_i unseen
        obtain rfl := Except.ok.inj succeeded
        -- A path with a name starts at a node with a name, by which that node is visible.
        obtain ⟨startName, isNamed⟩ := Option.isSome_iff_exists.mp (anchored (by simp [named]))
        have visible := takesRelationships.visible (takesNodes.visible (isStart startName isNamed))
        have made : (Definition.path (relationships.zip nodes).length
              (elementsOf start (relationships.zip nodes))).shape
            = (NamedPart.path name (relationships.zip nodes).length path.start.name).shape
                third.walk.visible := by
          simp [NamedPart.shape, Definition.shape, isNamed, visible, elementsOf]
        exact .part (.declared
          (fun _ => (name, .path (relationships.zip nodes).length
            (elementsOf start (relationships.zip nodes))))
          unseen (fun _ => made) rfl) (.refl _)

end ClauseWalk

/-- A `MATCH` is taken by the named parts of its patterns. -/
theorem Walk.takes_takeMatch {walk later : Walk} {clause : MatchClause}
    (anchored : ∀ path ∈ clause.patterns, path.name.isSome = true → path.start.name.isSome = true)
    (succeeded : walk.takeMatch clause = .ok later)
    : walk.Takes (clause.patterns.flatMap namedParts) later := by
  have patterns {paths : List PathPattern} {first last : ClauseWalk}
      (anchored : ∀ path ∈ paths, path.name.isSome = true → path.start.name.isSome = true)
      (taken : paths.foldlM (·.takePath ·) first = .ok last)
      : first.walk.Takes (paths.flatMap namedParts) last.walk := by
    induction paths generalizing first with
    | nil =>
        obtain rfl := Except.ok.inj taken
        exact .refl _
    | cons path rest ih =>
        rw [List.foldlM_cons] at taken
        obtain ⟨middle, takesPath, others⟩ := bind_eq_ok.mp taken
        rw [List.flatMap_cons]
        refine (ClauseWalk.takes_takePath (anchored path (by simp)) takesPath).append ?_
        exact ih (fun path member => anchored path (by simp [member])) others
  obtain ⟨state, takesPaths, succeeded⟩ := bind_eq_ok.mp succeeded
  have takes := patterns anchored takesPaths
  -- The clause itself is not shared.
  have closed (clauses : List ReadingClause)
      : walk.Takes (clause.patterns.flatMap namedParts) { state.walk with clauses } := by
    have hides : state.walk.Hides { state.walk with clauses } :=
      ⟨⟨.refl _, fun _ _ => Iff.rfl, rfl, rfl, rfl⟩,
        fun plain => ⟨plain.vars, plain.visible, plain.models⟩⟩
    simpa using takes.append (.hide hides (.refl _))
  dsimp only at succeeded
  split at succeeded
  · obtain ⟨condition, -, same⟩ := bind_eq_ok.mp succeeded
    exact Except.ok.inj same ▸ closed _
  · exact Except.ok.inj succeeded ▸ closed _

open Cypher (PathPattern MatchClause Projection ProjectionItem)

/-- The part has a written name, and starts at a node with a name if it is a path. -/
def NamedPart.Plain : NamedPart → Prop
  | .node name => Written name
  | .relationship name => Written name
  | .path name _ start => Written name ∧ start.isSome = true

/-- What the clause declares has written names, and its paths start at nodes with names if they have
names themselves.
-/
def Clause.Plain : Cypher.Clause → Prop
  | .matching clause => ∀ part ∈ clause.patterns.flatMap namedParts, part.Plain
  | .withItems projection _ => ∀ item ∈ projection.items, ∀ name ∈ item.aliasName, Written name
  | .returnItems projection => ∀ item ∈ projection.items, ∀ name ∈ item.aliasName, Written name

instance : DecidablePred NamedPart.Plain
  | .node name => inferInstanceAs (Decidable (Written name))
  | .relationship name => inferInstanceAs (Decidable (Written name))
  | .path name _ start => inferInstanceAs (Decidable (Written name ∧ start.isSome = true))

instance : DecidablePred Clause.Plain
  | .matching clause =>
      inferInstanceAs (Decidable (∀ part ∈ clause.patterns.flatMap namedParts, part.Plain))
  | .withItems projection _ =>
      inferInstanceAs (Decidable (∀ item ∈ projection.items, ∀ name ∈ item.aliasName, Written name))
  | .returnItems projection =>
      inferInstanceAs (Decidable (∀ item ∈ projection.items, ∀ name ∈ item.aliasName, Written name))

/-- The clauses are the same, but for parts of patterns that have no name and for conditions in a
`MATCH`.
-/
inductive Clause.Alike : Cypher.Clause → Cypher.Clause → Prop
  | matching {clause other : MatchClause}
    (parts : clause.patterns.flatMap namedParts = other.patterns.flatMap namedParts)
    : Alike (.matching clause) (.matching other)
  | withItems (projection : Projection) (condition : Option Cypher.Expr)
    : Alike (.withItems projection condition) (.withItems projection condition)
  | returnItems (projection : Projection)
    : Alike (.returnItems projection) (.returnItems projection)

theorem NamedPart.Plain.written {part : NamedPart} (plain : part.Plain) : Written part.name := by
  cases part with
  | node name => exact plain
  | relationship name => exact plain
  | path name hops start => exact plain.1

/-- Paths with a name start at a node with a name. -/
theorem anchored_of_plain {patterns : List PathPattern}
    (plain : ∀ part ∈ patterns.flatMap namedParts, part.Plain)
    : ∀ path ∈ patterns, path.name.isSome = true → path.start.name.isSome = true := by
  intro path member named
  obtain ⟨name, isName⟩ := Option.isSome_iff_exists.mp named
  have isPart
      : NamedPart.path name path.hops.length path.start.name ∈ patterns.flatMap namedParts :=
    List.mem_flatMap.mpr ⟨path, member, by simp [namedParts, isName]⟩
  exact (plain _ isPart).2

namespace Walk

variable {walk other later laterOther : Walk} {kind : ScopeKind} {next : Visible}

/-- The walks agree after the same named parts. -/
theorem Agree.takeMatch {clause clauseOther : MatchClause} (agree : walk.Agree other)
    (plain : ∀ part ∈ clause.patterns.flatMap namedParts, part.Plain)
    (alike : clause.patterns.flatMap namedParts = clauseOther.patterns.flatMap namedParts)
    (taken : walk.takeMatch clause = .ok later)
    (takenOther : other.takeMatch clauseOther = .ok laterOther)
    : later.Agree laterOther := by
  have takes := takes_takeMatch (anchored_of_plain plain) taken
  have takesOther := takes_takeMatch (anchored_of_plain (alike ▸ plain)) takenOther
  rw [← alike] at takesOther
  exact takes.agree takesOther (fun part member => (plain part member).written) agree

theorem Agree.resolve_eq (agree : walk.Agree other) (expr : Cypher.Expr)
    : walk.resolve expr = other.resolve expr := by
  rw [resolve, resolve, agree.shares.visible]

/-- The column of an expression without a name has the same id in both walks. -/
theorem Agree.declareColumn (agree : walk.Agree other) (column : String)
    : (walk.declareColumn column).1 = (other.declareColumn column).1
      ∧ Written (walk.declareColumn column).1
      ∧ (walk.declareColumn column).2.Agree (other.declareColumn column).2 :=
  agree.declare (by decide) (fun _ => rfl) (by rintro _ _ ⟨⟩) (by rintro _ _ _ ⟨⟩)

/-- A projected name has the same id in both walks. -/
theorem Agree.declareName {name : String} {expr : Expr} (agree : walk.Agree other)
    (written : Written name)
    (isWithin : expr.Within Written)
    : (walk.declare name fun _ => (name, .projected expr none)).1
        = (other.declare name fun _ => (name, .projected expr none)).1
      ∧ Written (walk.declare name fun _ => (name, .projected expr none)).1
      ∧ (walk.declare name fun _ => (name, .projected expr none)).2.Agree
          (other.declare name fun _ => (name, .projected expr none)).2 :=
  agree.declare written (fun _ => rfl) (by rintro _ _ ⟨⟩; exact isWithin) (by rintro _ _ _ ⟨⟩)

/-- The names are known by written ids. -/
def Names (next : Visible) : Prop :=
  ∀ entry ∈ next.entries, Written entry.2

theorem Names.insert {name : String} {id : VarId} (names : Names next) (written : Written id)
    : Names (next.insert name id) := by
  intro entry member
  rcases Visible.mem_entries_insert member with rfl | earlier
  · exact written
  · exact names entry earlier

/-- What two walks come to with an item or several agrees: what they are taken to is the same and
mentions written ids only, and so are the names that they make visible.
-/
structure AgreeOn {α : Type} (plain : α → Prop) (result resultOther : α × Visible × Walk)
    : Prop where
  same : result.1 = resultOther.1
  plain : plain result.1
  visible : result.2.1 = resultOther.2.1
  names : Names result.2.1
  walks : result.2.2.Agree resultOther.2.2

/-- The walks agree after the same item. -/
theorem Agree.takeItem {item : ProjectionItem} {result resultOther : Item × Visible × Walk}
    (agree : walk.Agree other) (names : Names next) (plain : ∀ name ∈ item.aliasName, Written name)
    (taken : walk.takeItem kind next item = .ok result)
    (takenOther : other.takeItem kind next item = .ok resultOther)
    : AgreeOn Item.Plain result resultOther := by
  obtain ⟨expr, resolves, taken⟩ := bind_eq_ok.mp taken
  obtain ⟨exprOther, resolvesOther, takenOther⟩ := bind_eq_ok.mp takenOther
  have isWithin : expr.Within Written :=
    within_of_resolveExpr (fun _ _ found => agree.plain.visible found) resolves
  rw [← agree.resolve_eq, resolves] at resolvesOther
  obtain rfl := Except.ok.inj resolvesOther
  cases named : item.aliasName with
  | some name =>
      rw [named] at taken takenOther
      dsimp only at taken takenOther
      split at taken
      · cases taken
      · rename_i unseen
        rw [if_neg unseen] at takenOther
        obtain rfl := Except.ok.inj taken
        obtain rfl := Except.ok.inj takenOther
        obtain ⟨sameId, written, walks⟩ := agree.declareName (plain name named) isWithin
        exact ⟨congrArg Item.named sameId, written, congrArg (next.insert name) sameId,
          names.insert written, walks⟩
  | none =>
      -- Both kinds of items without a name declare a column, and differ in what becomes visible.
      have columns (column : String) {visible : Visible} (names : Names visible)
          : AgreeOn Item.Plain
              (.unnamed expr (walk.declareColumn column).1, visible, (walk.declareColumn column).2)
              (.unnamed expr (other.declareColumn column).1, visible,
                (other.declareColumn column).2) := by
        obtain ⟨sameId, written, walks⟩ := agree.declareColumn column
        exact ⟨congrArg (Item.unnamed expr) sameId, ⟨isWithin, written⟩, rfl, names, walks⟩
      rw [named] at taken takenOther
      cases kind with
      | returnClause =>
          obtain rfl := Except.ok.inj taken
          obtain rfl := Except.ok.inj takenOther
          exact columns item.text names
      | withClause =>
          cases source : item.expr with
          | var name =>
              rw [source] at taken takenOther resolves
              dsimp only at taken takenOther
              split at taken
              · cases taken
              · rename_i unseen
                rw [if_neg unseen] at takenOther
                obtain rfl := Except.ok.inj taken
                obtain rfl := Except.ok.inj takenOther
                obtain ⟨id, rfl⟩ := (resolve_var walk name).of_ok resolves
                exact columns name (names.insert (Expr.within_var.mp isWithin))
          | _ =>
              rw [source] at taken
              cases taken

/-- The walks agree after the same items, by induction over them. -/
theorem Agree.takeItems {items : List ProjectionItem}
    {result resultOther : List Item × Visible × Walk}
    (agree : walk.Agree other) (names : Names next)
    (plain : ∀ item ∈ items, ∀ name ∈ item.aliasName, Written name)
    (taken : walk.takeItems kind next items = .ok result)
    (takenOther : other.takeItems kind next items = .ok resultOther)
    : AgreeOn (fun items => ∀ item ∈ items, item.Plain) result resultOther := by
  induction items generalizing walk other next result resultOther with
  | nil =>
      obtain rfl := Except.ok.inj taken
      obtain rfl := Except.ok.inj takenOther
      exact ⟨rfl, by simp, rfl, names, agree⟩
  | cons item rest ih =>
      obtain ⟨⟨first, visible, middle⟩, takesFirst, taken⟩ := bind_eq_ok.mp taken
      obtain ⟨⟨others, last, final⟩, takesRest, same⟩ := bind_eq_ok.mp taken
      obtain rfl := Except.ok.inj same
      obtain ⟨⟨firstOther, visibleOther, middleOther⟩, takesFirstOther, takenOther⟩ :=
        bind_eq_ok.mp takenOther
      obtain ⟨⟨othersOther, lastOther, finalOther⟩, takesRestOther, same⟩ :=
        bind_eq_ok.mp takenOther
      obtain rfl := Except.ok.inj same
      have head := agree.takeItem names (plain item (by simp)) takesFirst takesFirstOther
      obtain rfl : visible = visibleOther := head.visible
      have tail :=
        ih head.walks head.names (fun item member => plain item (by simp [member])) takesRest
        takesRestOther
      exact ⟨congrArg₂ List.cons head.same tail.same,
        List.forall_mem_cons.mpr ⟨head.plain, tail.plain⟩, tail.visible, tail.names, tail.walks⟩

/-- The walks agree after the same projection. -/
theorem Agree.closeScope {projection : Projection} {condition : Option Cypher.Expr}
    (agree : walk.Agree other)
    (plain : ∀ item ∈ projection.items, ∀ name ∈ item.aliasName, Written name)
    (closed : walk.closeScope kind projection condition = .ok later)
    (closedOther : other.closeScope kind projection condition = .ok laterOther)
    : later.Agree laterOther := by
  obtain ⟨⟨items, next, place⟩, takesItems, closed⟩ := bind_eq_ok.mp closed
  obtain ⟨orderBy, takesKeys, closed⟩ := bind_eq_ok.mp closed
  obtain ⟨skip, -, closed⟩ := bind_eq_ok.mp closed
  obtain ⟨limit, -, closed⟩ := bind_eq_ok.mp closed
  obtain ⟨filter, -, same⟩ := bind_eq_ok.mp closed
  obtain rfl := Except.ok.inj same
  obtain ⟨⟨itemsOther, nextOther, placeOther⟩, takesItemsOther, closedOther⟩ :=
    bind_eq_ok.mp closedOther
  obtain ⟨orderByOther, takesKeysOther, closedOther⟩ := bind_eq_ok.mp closedOther
  obtain ⟨skipOther, -, closedOther⟩ := bind_eq_ok.mp closedOther
  obtain ⟨limitOther, -, closedOther⟩ := bind_eq_ok.mp closedOther
  obtain ⟨filterOther, -, same⟩ := bind_eq_ok.mp closedOther
  obtain rfl := Except.ok.inj same
  have names : Names .none := by simp [Names, Visible.none]
  obtain ⟨sameItems, plainItems, sameNext, names, walks⟩ :=
    agree.takeItems names plain takesItems takesItemsOther
  obtain rfl : items = itemsOther := sameItems
  obtain rfl : next = nextOther := sameNext
  have sameKeys : orderBy = orderByOther := by
    -- Both walks resolve the sort keys among the same names.
    rw [← walks.shares.visible, takesKeys] at takesKeysOther
    exact Except.ok.inj takesKeysOther
  have plainKeys : ∀ key ∈ orderBy, key.expr.Within Written := by
    intro key member
    obtain ⟨position, found⟩ := List.getElem?_of_mem member
    obtain ⟨source, -, made⟩ :=
      forall₂_getElem?_right (Modality.forall₂_of_mapM_eq_ok takesKeys) found
    obtain ⟨expr, resolves, same⟩ := bind_eq_ok.mp made
    obtain rfl := Except.ok.inj same
    refine within_of_resolveExpr (fun name id found => ?_) resolves
    -- A sort key sees the names before the projection too.
    rcases Visible.get?_foldl_insert found with earlier | entry
    · exact walks.plain.visible earlier
    · exact names (name, id) entry
  have visible {name : String} {id : VarId} (found : next.get? name = some id) : Written id :=
    names (name, id) (Visible.mem_entries_of_get? found)
  have models {walk : Walk} {model : ScopeModel} (plain : walk.Plain)
      (projects : model.projection = (items, orderBy))
      : ∀ each ∈ walk.models ++ [model], each.Plain := by
    obtain ⟨rfl, rfl⟩ := Prod.mk.inj projects
    intro each member
    rcases List.mem_append.mp member with earlier | last
    · exact plain.models each earlier
    · rw [List.mem_singleton.mp last]
      exact ⟨plainItems, plainKeys⟩
  have length : place.models.length = placeOther.models.length := by
    simpa using congrArg List.length walks.shares.models
  refine ⟨⟨walks.plain.vars, visible, models walks.plain rfl⟩,
    ⟨walks.plainOther.vars, visible, models walks.plainOther (by rw [sameKeys]; rfl)⟩,
    ⟨walks.shares.vars, walks.shares.naming, ?_, rfl, ?_⟩⟩
  · exact congrArg (· + 1) length
  · rw [List.map_append, List.map_append, walks.shares.models, sameKeys]
    rfl

/-- The walks agree after clauses that are alike, by induction over them. -/
theorem Agree.takeClauses {clauses others : List Cypher.Clause} {returned : Bool}
    (agree : walk.Agree other)
    (plain : ∀ clause ∈ clauses, Clause.Plain clause)
    (alike : List.Forall₂ Clause.Alike clauses others)
    (taken : walk.takeClauses returned clauses = .ok later)
    (takenOther : other.takeClauses returned others = .ok laterOther)
    : later.Agree laterOther := by
  induction alike generalizing walk other returned with
  | nil =>
      cases returned with
      | true => exact Except.ok.inj taken ▸ Except.ok.inj takenOther ▸ agree
      | false => cases taken
  | cons first _ ih =>
      obtain ⟨plainFirst, plainRest⟩ := List.forall_mem_cons.mp plain
      cases returned with
      | true => cases taken
      | false =>
          cases first with
          | matching parts =>
              obtain ⟨middle, takes, taken⟩ := bind_eq_ok.mp taken
              obtain ⟨middleOther, takesOther, takenOther⟩ := bind_eq_ok.mp takenOther
              exact ih (agree.takeMatch plainFirst parts takes takesOther) plainRest
                taken takenOther
          | withItems projection condition =>
              obtain ⟨middle, takes, taken⟩ := bind_eq_ok.mp taken
              obtain ⟨middleOther, takesOther, takenOther⟩ := bind_eq_ok.mp takenOther
              exact ih (agree.closeScope plainFirst takes takesOther) plainRest taken takenOther
          | returnItems projection =>
              obtain ⟨middle, takes, taken⟩ := bind_eq_ok.mp taken
              obtain ⟨middleOther, takesOther, takenOther⟩ := bind_eq_ok.mp takenOther
              exact ih (agree.closeScope plainFirst takes takesOther) plainRest taken takenOther

theorem agree_start : start.Agree start := by
  have plain : start.Plain :=
    ⟨⟨by rintro _ _ ⟨⟩, by rintro _ _ _ ⟨⟩, by rintro _ _ _ _ _ ⟨⟩⟩,
      by rintro _ _ ⟨⟩, by simp [start]⟩
  exact ⟨plain, plain, .refl _⟩

end Walk

/-- The walks over queries with alike clauses agree. -/
theorem collect_agree {query other : Cypher.Query} {walk walkOther : Walk}
    (plain : ∀ clause ∈ query.clauses, Clause.Plain clause)
    (alike : List.Forall₂ Clause.Alike query.clauses other.clauses)
    (collected : collect query = .ok walk) (collectedOther : collect other = .ok walkOther)
    : walk.Agree walkOther :=
  Walk.agree_start.takeClauses plain alike collected collectedOther

end CypherSql.Plan
