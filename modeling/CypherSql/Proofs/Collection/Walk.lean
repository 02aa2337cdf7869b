import CypherSql.Plan.Model
import CypherSql.Proofs.FreshNames
import CypherSql.Proofs.Scoping

/-! The invariant of the walk over the clauses of a query, and the steps it is made of: declaring a
variable, adding it to the open clause, and giving it a name.
-/

namespace CypherSql.Plan

namespace Visible

theorem get?_insert (visible : Visible) (name other id : String)
    : (visible.insert name id).get? other
      = if other = name then some id else visible.get? other := by
  obtain ⟨entries⟩ := visible
  simp only [get?, insert]
  induction entries with
  | nil => simp [bindEntry]
  | cons entry rest ih =>
      obtain ⟨key, old⟩ := entry
      simp only [bindEntry]
      split
      · rename_i same
        subst same
        by_cases found : other = key <;> simp [lookup_cons_entry, found]
      · rename_i different
        simp only [lookup_cons_entry, ih]
        by_cases found : other = name
        · subst found
          simp [Ne.symm different]
        · simp [found]

/-- Entries that are put over others are found behind or among those. -/
theorem get?_foldl_insert {entries : List (String × String)} {visible : Visible} {name id : String}
    (found : (entries.foldl (fun seen (name, id) => seen.insert name id) visible).get? name
      = some id)
    : visible.get? name = some id ∨ (name, id) ∈ entries := by
  induction entries generalizing visible with
  | nil => exact .inl found
  | cons entry rest ih =>
      rcases ih found with earlier | later
      · rw [get?_insert] at earlier
        split at earlier
        · rename_i same
          exact .inr (by simp [same, ← Option.some.inj earlier])
        · exact .inl earlier
      · exact .inr (by simp [later])

/-- Every entry of names whose keys differ is found under its name. -/
theorem mem_entries_insert {visible : Visible} {name id : String} {entry : String × String}
    (member : entry ∈ (visible.insert name id).entries)
    : entry = (name, id) ∨ entry ∈ visible.entries := by
  obtain ⟨entries⟩ := visible
  simp only [insert] at member ⊢
  induction entries with
  | nil => simpa [bindEntry] using member
  | cons first rest ih =>
      simp only [bindEntry] at member
      split at member
      · rcases List.mem_cons.mp member with same | old
        · exact .inl same
        · exact .inr (by simp [old])
      · rcases List.mem_cons.mp member with same | old
        · exact .inr (by simp [same])
        · exact (ih old).imp_right fun old => by simp [old]

end Visible

section Bind

variable (walk : Walk) (name : Option String) (id : VarId)

@[simp]
theorem Walk.bind_vars : (walk.bind name id).vars = walk.vars := by
  cases name <;> rfl

@[simp]
theorem Walk.bind_scope : (walk.bind name id).scope = walk.scope := by
  cases name <;> rfl

@[simp]
theorem Walk.bind_models : (walk.bind name id).models = walk.models := by
  cases name <;> rfl

@[simp]
theorem Walk.bind_clauses : (walk.bind name id).clauses = walk.clauses := by
  cases name <;> rfl

end Bind

/-- Nothing is found out yet: a projected variable has no type, a relationship no table, and no
property is known to be read.
-/
def Definition.Unresolved : Definition → Prop
  | .projected _ type => type = none
  | .node pattern => pattern.required = ∅
  | .relationship rel => rel.binding = none ∧ rel.required = ∅
  | _ => True

/-- Nothing is found out about any variable of a table yet. -/
def VarTable.Unresolved (vars : VarTable) : Prop :=
  ∀ id var, vars.get? id = some var → var.definition.Unresolved

namespace ClauseWalk

/-- The items that pass variables on to the open scope. -/
def inherited (state : ClauseWalk) : List Item :=
  itemsBefore state.walk.models state.walk.scope

/-- The variables that the clauses of the open scope declare so far. -/
def own (state : ClauseWalk) : List VarId :=
  clauseIds state.walk.clauses ++ state.ids

/-- The variable is in reach where the walk is. -/
def Reach (state : ClauseWalk) (id : VarId) : Prop :=
  InReach state.walk.vars state.walk.scope state.inherited state.own id

/-- The open clause as far as it is taken. -/
def clause (state : ClauseWalk) : ReadingClause :=
  { optional := false, ids := state.ids, relationships := state.relationships, condition := none }

/-- The invariant of the walk: its variables are ordered, linked and known by used names, everything
that was taken refers to what was in reach, and so do the visible names.
-/
structure Sound (state : ClauseWalk) : Prop where
  inOrder : state.walk.vars.Ordered state.walk.declared
  used : ∀ {id}, (state.walk.vars.get? id).isSome → id ∈ state.walk.naming.used
  linked : state.walk.vars.Linked
  unresolved : state.walk.vars.Unresolved
  scope : state.walk.scope = state.walk.models.length
  within : ∀ {id var}, state.walk.vars.get? id = some var → var.scope ≤ state.walk.scope
  models : ModelsScoped state.walk.vars state.walk.models
  clauses : ClausesScoped state.walk.vars state.walk.scope state.inherited state.walk.clauses
  current
    : state.clause.Scoped state.walk.vars state.walk.scope state.inherited
        (clauseIds state.walk.clauses)
  distinct : state.own.Nodup
  visible : ∀ {name id}, state.walk.visible.get? name = some id → state.Reach id
  conditions : Expr.AllOver state.Reach state.conditions
  filter
    : ∀ condition,
        state.walk.filter = some condition
        → condition.Over (InReach state.walk.vars state.walk.scope state.inherited [])

/-- The variables of a sound walk have an order. -/
theorem Sound.ordered {state : ClauseWalk} (sound : state.Sound)
    : ∃ order, state.walk.vars.Ordered order :=
  ⟨state.walk.declared, sound.inOrder⟩

/-- A later place in the same clause of the walk. -/
structure Advances (state later : ClauseWalk) : Prop where
  grows : state.walk.vars.GrowsTo later.walk.vars
  scope : later.walk.scope = state.walk.scope
  models : later.walk.models = state.walk.models
  clauses : later.walk.clauses = state.walk.clauses
  ids : ∀ id ∈ state.ids, id ∈ later.ids

theorem Advances.refl (state : ClauseWalk) : state.Advances state :=
  ⟨.refl _, rfl, rfl, rfl, fun _ member => member⟩

theorem Advances.trans {first second third : ClauseWalk} (left : first.Advances second)
    (right : second.Advances third)
    : first.Advances third :=
  ⟨left.grows.trans right.grows, right.scope.trans left.scope, right.models.trans left.models,
    right.clauses.trans left.clauses, fun id member => right.ids id (left.ids id member)⟩

/-- What is in reach stays in reach further on in the clause. -/
theorem Advances.reach {state later : ClauseWalk} (advances : state.Advances later)
    (sound : state.Sound) (soundLater : later.Sound) {id : VarId} (reach : state.Reach id)
    : later.Reach id := by
  obtain ⟨order, ordered⟩ := sound.ordered
  obtain ⟨orderLater, orderedLater⟩ := soundLater.ordered
  have grown := InReach.grow advances.grows ordered orderedLater reach
  rw [Reach, inherited, advances.scope, advances.models, own, advances.clauses]
  refine grown.mono fun id member => ?_
  rcases List.mem_append.mp member with old | current
  · exact List.mem_append_left _ old
  · exact List.mem_append_right _ (advances.ids id current)

/-- What stands for a node does so further on in the clause. -/
theorem Advances.standsForNode {state later : ClauseWalk} (advances : state.Advances later)
    (sound : state.Sound) (soundLater : later.Sound) {id : VarId}
    (stands : state.walk.vars.StandsForNode id)
    : later.walk.vars.StandsForNode id := by
  obtain ⟨order, ordered⟩ := sound.ordered
  obtain ⟨orderLater, orderedLater⟩ := soundLater.ordered
  exact advances.grows.standsForNode ordered orderedLater stands

/-- The listed variables of the open scope are in the table. -/
theorem Sound.isSome_of_mem_own {state : ClauseWalk} (sound : state.Sound) {id : VarId}
    (member : id ∈ state.own)
    : (state.walk.vars.get? id).isSome := by
  rcases List.mem_append.mp member with old | current
  · obtain ⟨clause, listed, member⟩ := List.mem_flatMap.mp old
    obtain ⟨index, found⟩ := List.mem_iff_getElem?.mp listed
    obtain ⟨var, present, -⟩ := (sound.clauses.each found).elements id member
    simp [present]
  · obtain ⟨var, present, -⟩ := sound.current.elements id current
    simp [present]

namespace Sound

variable {state : ClauseWalk}

/-- The walk may go on with a grown table. -/
theorem grow (sound : state.Sound) {vars : VarTable} {naming : Naming} {declared : List VarId}
    (grows : state.walk.vars.GrowsTo vars) (orderedLater : vars.Ordered declared)
    (used : ∀ {id}, (vars.get? id).isSome → id ∈ naming.used) (linked : vars.Linked)
    (unresolved : vars.Unresolved)
    (within : ∀ {id var}, vars.get? id = some var → var.scope ≤ state.walk.scope)
    : ({ state with walk := { state.walk with vars, naming, declared } } : ClauseWalk).Sound := by
  have ordered := sound.inOrder
  have reach {own : List VarId} {id : VarId}
      (reach : InReach state.walk.vars state.walk.scope state.inherited own id) :=
    reach.grow grows ordered orderedLater
  exact {
    inOrder := orderedLater
    used := used
    linked := linked
    unresolved := unresolved
    scope := sound.scope
    within := within
    models := ModelsScoped.grow grows ordered orderedLater sound.models
    clauses := sound.clauses.grow grows ordered orderedLater
    current := sound.current.grow grows ordered orderedLater
    distinct := sound.distinct
    visible := fun found => reach (sound.visible found)
    conditions := sound.conditions.mono fun _ => reach
    filter := fun condition found => (sound.filter condition found).mono fun _ => reach
  }

/-- A name may be given to a variable in reach. -/
theorem bind (sound : state.Sound) {id : VarId} (reach : state.Reach id) (name : Option String)
    : ({ state with walk := state.walk.bind name id } : ClauseWalk).Sound := by
  cases name with
  | none => exact sound
  | some name =>
      refine { sound with visible := fun {other found} present => ?_ }
      simp only [Walk.bind, Visible.get?_insert] at present
      split at present
      · exact Option.some.inj present ▸ reach
      · exact sound.visible present

/-- More conditions may be kept that refer to what is in reach. -/
theorem addConditions (sound : state.Sound) {conditions : List Expr}
    (isOver : Expr.AllOver state.Reach conditions)
    : ({ state with conditions := state.conditions ++ conditions } : ClauseWalk).Sound :=
  { sound with conditions := Expr.allOver_append.mpr ⟨sound.conditions, isOver⟩ }

/-- A node or relationship of the open scope that is not listed yet may be added to the clause. -/
theorem list (sound : state.Sound) {id : VarId} {var : Variable}
    (found : state.walk.vars.get? id = some var) (here : var.scope = state.walk.scope)
    (element : var.definition.isElement) (unlisted : id ∉ state.own)
    (restriction
      : ∀ condition,
          var.definition.restriction? = some condition
          → condition.Over fun other => other = id ∨ state.Reach other)
    (ends
      : ∀ rel,
          state.walk.vars.relationship? id = some rel
          → state.Reach rel.left ∧ state.Reach rel.right)
    (relationships : List VarId)
    (relationshipIds
      : ∀ other,
          other ∈ relationships
          ↔ other ∈ state.relationships
            ∨ other = id ∧ (state.walk.vars.relationship? id).isSome)
    : ({ state with ids := state.ids ++ [id], relationships } : ClauseWalk).Sound := by
  have included
      : ∀ other ∈ state.own, other ∈ clauseIds state.walk.clauses ++ (state.ids ++ [id]) := by
    intro other member
    rw [← List.append_assoc]
    exact List.mem_append_left _ member
  have reach {other : VarId} (reach : state.Reach other)
      : InReach state.walk.vars state.walk.scope state.inherited
          (clauseIds state.walk.clauses ++ (state.ids ++ [id])) other :=
    reach.mono included
  refine { sound with
    current := ?_
    distinct := ?_
    visible := fun found => reach (sound.visible found)
    conditions := sound.conditions.mono fun _ => reach
  }
  · have current := sound.current
    refine {
      elements := ?_
      restrictions := ?_
      ends := ?_
      relationships := ?_
      condition := by simp [clause]
    }
    · intro other member
      rcases List.mem_append.mp member with old | new
      · exact current.elements other old
      · obtain rfl := List.mem_singleton.mp new
        exact ⟨var, found, here, element⟩
    · intro other member variable' found' condition present
      rcases List.mem_append.mp member with old | new
      · exact (current.restrictions other old variable' found' condition present).mono
          fun _ => Or.imp_right reach
      · obtain rfl := List.mem_singleton.mp new
        obtain rfl := Option.some.inj (found.symm.trans found')
        exact (restriction condition present).mono fun _ => Or.imp_right reach
    · intro other member rel found'
      rcases List.mem_append.mp member with old | new
      · exact (current.ends other old rel found').imp reach reach
      · obtain rfl := List.mem_singleton.mp new
        exact (ends rel found').imp reach reach
    · intro other
      have old := current.relationships other
      simp only [clause] at old ⊢
      rw [relationshipIds, old, List.mem_append, List.mem_singleton]
      constructor
      · rintro (⟨member, kind⟩ | ⟨rfl, kind⟩)
        · exact ⟨.inl member, kind⟩
        · exact ⟨.inr rfl, kind⟩
      · rintro ⟨member | rfl, kind⟩
        · exact .inl ⟨member, kind⟩
        · exact .inr ⟨rfl, kind⟩
  · show (clauseIds state.walk.clauses ++ (state.ids ++ [id])).Nodup
    rw [← List.append_assoc]
    refine List.nodup_append.mpr ⟨sound.distinct, by simp, ?_⟩
    intro other member last single
    rintro rfl
    exact unlisted (List.mem_singleton.mp single ▸ member)

end Sound

end ClauseWalk

theorem Walk.get?_declare (walk : Walk) (base : String)
    (make : VarId → String × Definition) (id : VarId)
    : (walk.declare base make).2.vars.get? id
      = if id = (walk.declare base make).1 then
          some
            { name := (make id).1, id, scope := walk.scope, definition := (make id).2 }
        else walk.vars.get? id := by
  simp only [Walk.declare, VarTable.get?_insert]
  by_cases same : id = (walk.naming.fresh base).1 <;> simp [same]

/-- What a declaration does: the new variable gets an id that was not there, and is added to the
table as it was made.
-/
structure Walk.Declares (walk : Walk) (make : VarId → String × Definition)
    (declared : VarId × Walk)
    : Prop where
  new : walk.vars.get? declared.1 = none
  later
    : declared.2
      = { walk with
          naming := declared.2.naming
          declared := walk.declared ++ [declared.1]
          vars := walk.vars.insert
            { name := (make declared.1).1, id := declared.1, scope := walk.scope,
              definition := (make declared.1).2 } }
  used : ∀ id, id ∈ declared.2.naming.used ↔ id = declared.1 ∨ id ∈ walk.naming.used

/-- The table after a declaration. -/
theorem Walk.Declares.get? {walk : Walk} {make : VarId → String × Definition}
    {declared : VarId × Walk} (declares : walk.Declares make declared) (id : VarId)
    : declared.2.vars.get? id
      = if id = declared.1 then
          some
            { name := (make declared.1).1, id := declared.1, scope := walk.scope,
              definition := (make declared.1).2 }
        else walk.vars.get? id := by
  rw [declares.later]
  exact VarTable.get?_insert _ _ _

/-- A declaration goes on in the same clause. -/
theorem Walk.Declares.advances {state : ClauseWalk} {make : VarId → String × Definition}
    {declared : VarId × Walk} (declares : state.walk.Declares make declared)
    : state.Advances { state with walk := declared.2 } := by
  have grows : state.walk.vars.GrowsTo declared.2.vars := by
    rw [declares.later]
    exact .insert declares.new
  refine ⟨grows, ?_, ?_, ?_, fun _ member => member⟩ <;>
  · dsimp only
    rw [declares.later]

/-- A declaration takes a fresh name for its id. -/
theorem Walk.declare_declares {walk : Walk}
    (used : ∀ {id}, (walk.vars.get? id).isSome → id ∈ walk.naming.used) (base : String)
    (make : VarId → String × Definition)
    : walk.Declares make (walk.declare base make) := by
  refine ⟨?_, rfl, fun id => Naming.mem_used_fresh⟩
  have fresh := walk.naming.fresh_not_mem base
  cases found : walk.vars.get? (walk.naming.fresh base).1 with
  | none => exact found
  | some var => exact absurd (used (by simp [found])) fresh

/-- The walk stays sound with a new variable whose definition is linked and refers to declared
variables.
-/
theorem ClauseWalk.Sound.declare {state : ClauseWalk} (sound : state.Sound)
    {make : VarId → String × Definition} {declared : VarId × Walk}
    (declares : state.walk.Declares make declared)
    (dependencies
      : ∀ dep ∈ (make declared.1).2.dependencies declared.1, (state.walk.vars.get? dep).isSome)
    (linked : (make declared.1).2.Linked state.walk.vars)
    (unresolved : (make declared.1).2.Unresolved)
    : ({ state with walk := declared.2 } : ClauseWalk).Sound := by
  have ordered := sound.inOrder
  have new : declared.1 ∉ state.walk.declared := by
    rw [ordered.declared, declares.new]
    simp
  let var : Variable :=
    { name := (make declared.1).1, id := declared.1, scope := state.walk.scope,
      definition := (make declared.1).2 }
  have orderedLater := ordered.insert var
    new (fun dep member => (ordered.declared dep).mpr (dependencies dep member)) sound.within
  have grows : state.walk.vars.GrowsTo (state.walk.vars.insert var) := .insert declares.new
  rw [declares.later]
  refine sound.grow grows orderedLater ?_ ?_ ?_ ?_
  · intro id present
    rw [declares.used]
    by_cases same : id = declared.1
    · exact .inl same
    · rw [VarTable.get?_insert, if_neg same] at present
      exact .inr (sound.used present)
  · exact VarTable.GrowsTo.linked_insert ordered orderedLater declares.new sound.linked linked
  · intro id var found
    rw [VarTable.get?_insert] at found
    split at found
    · obtain rfl := Option.some.inj found
      exact unresolved
    · exact sound.unresolved id var found
  · intro id var present
    rw [VarTable.get?_insert] at present
    split at present
    · obtain rfl := Option.some.inj present
      exact Nat.le_refl _
    · exact sound.within present

end CypherSql.Plan
