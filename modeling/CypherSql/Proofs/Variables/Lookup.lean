import CypherSql.Plan.Variable
import CypherSql.Proofs.Names

/-! What a table of variables answers after each update, and the part of a definition that the
steps of lowering leave as it is.
-/

namespace CypherSql.Plan

theorem Expr.mem_references {expr : Expr} {id : VarId}
    : id ∈ expr.references ↔ ∃ part ∈ expr.parts, part.reference? = some id := by
  simp [Expr.references]

@[simp]
theorem Expr.mem_references_var {id other : VarId}
    : id ∈ (Expr.var other).references ↔ id = other := by
  simp [Expr.mem_references, Expr.parts, Expr.reference?, eq_comm]

namespace VarTable

theorem get?_insert (table : VarTable) (var : Variable) (id : VarId)
    : (table.insert var).get? id = if id = var.id then some var else table.get? id :=
  NameMap.get?_insert _ _ _ _

theorem get?_redefine (table : VarTable) (id other : VarId) (definition : Definition)
    : (table.redefine id definition).get? other
      = if other = id then (table.get? id).map fun var => { var with definition }
        else table.get? other :=
  NameMap.get?_modify _ _ _ _

@[simp]
theorem get?_refresh (table : VarTable) (id other : VarId)
    : (table.refresh id).get? other = table.get? other := by
  unfold refresh
  split <;> rfl

theorem get?_remove (table : VarTable) (id other : VarId)
    : (table.remove id).get? other = if other = id then none else table.get? other :=
  NameMap.get?_erase _ _ _

theorem definition?_eq_some {table : VarTable} {id : VarId} {definition : Definition}
    : table.definition? id = some definition
      ↔ ∃ var, table.get? id = some var ∧ var.definition = definition := by
  simp [definition?, Option.map_eq_some_iff]

theorem definition?_of_get? {table : VarTable} {id : VarId} {var : Variable}
    (found : table.get? id = some var)
    : table.definition? id = some var.definition := by
  simp [definition?, found]

theorem definition?_redefine_self {table : VarTable} {id : VarId} {var : Variable}
    (found : table.get? id = some var) (definition : Definition)
    : (table.redefine id definition).definition? id = some definition := by
  simp [definition?, get?_redefine, found]

theorem definition?_redefine_of_ne {table : VarTable} {id other : VarId} (different : other ≠ id)
    (definition : Definition)
    : (table.redefine id definition).definition? other = table.definition? other := by
  rw [definition?, get?_redefine, if_neg different]
  rfl

theorem node?_eq_some {table : VarTable} {id : VarId} {node : NodeVar}
    : table.node? id = some node ↔ table.definition? id = some (.node node) := by
  unfold node?
  split
  · simp_all
  · rename_i absent
    refine ⟨by simp, fun found => absurd found (absent node)⟩

/-- A node is the same node in a table with the same definition of it. -/
theorem node?_congr {table other : VarTable} {id : VarId} {node : NodeVar}
    (same : other.definition? id = table.definition? id) (found : table.node? id = some node)
    : other.node? id = some node :=
  node?_eq_some.mpr (same.trans (node?_eq_some.mp found))

theorem relationship?_eq_some {table : VarTable} {id : VarId} {rel : RelationshipVar}
    : table.relationship? id = some rel ↔ table.definition? id = some (.relationship rel) := by
  unfold relationship?
  split
  · simp_all
  · rename_i absent
    refine ⟨by simp, fun found => absurd found (absent rel)⟩

/-- The ids of a table are those that have a variable. -/
theorem mem_ids {table : VarTable} {id : VarId} : id ∈ table.ids ↔ (table.get? id).isSome :=
  NameMap.mem_keys

/-- The variables of a table are those that a lookup finds. -/
theorem mem_toList {table : VarTable} {var : Variable}
    : var ∈ table.toList ↔ ∃ id, table.get? id = some var :=
  NameMap.mem_values

end VarTable

namespace Definition

/-- The definition without its labels, its type, its condition and what is found out about its
table: what the steps before the simplification never change.
-/
def outline : Definition → Definition
  | .node _ => .node { labels := ∅, restriction := none, required := ∅, binding := none }
  | .relationship rel =>
      .relationship { rel with restriction := none, required := ∅, binding := none }
  | .path hops elements => .path hops elements
  | .projected expr _ => .projected expr none
  | .temporary column => .temporary column

/-- The definition is that of a node or a relationship. -/
def isElement : Definition → Bool
  | .node _ => true
  | .relationship _ => true
  | _ => false

/-- The condition that a pattern puts on the variable. -/
def restriction? : Definition → Option Expr
  | .node pattern => pattern.restriction
  | .relationship rel => rel.restriction
  | _ => none

@[simp]
theorem target?_outline (definition : Definition)
    : definition.outline.target? = definition.target? := by
  cases definition with
  | projected expr type => cases expr <;> rfl
  | _ => rfl

@[simp]
theorem projection?_outline (definition : Definition)
    : definition.outline.projection? = definition.projection? := by
  cases definition <;> rfl

@[simp]
theorem isTemporary_outline (definition : Definition)
    : definition.outline.isTemporary = definition.isTemporary := by
  cases definition <;> rfl

@[simp]
theorem isElement_outline (definition : Definition)
    : definition.outline.isElement = definition.isElement := by
  cases definition <;> rfl

/-- The dependencies of a definition follow from its outline and its condition. -/
theorem dependencies_eq {definition other : Definition} {id : VarId}
    (outline : definition.outline = other.outline)
    (restriction : definition.restriction? = other.restriction?)
    : definition.dependencies id = other.dependencies id := by
  cases definition <;> cases other <;> simp only [Definition.outline, reduceCtorEq] at outline
  case node.node left right =>
    simp only [restriction?] at restriction
    simp only [dependencies, restriction]
  case relationship.relationship left right =>
    simp only [Definition.relationship.injEq, RelationshipVar.mk.injEq] at outline
    simp only [restriction?] at restriction
    simp only [dependencies, restriction, outline.1, outline.2.1]
  case path.path =>
    simp only [Definition.path.injEq] at outline
    simp only [dependencies, outline.2]
  case projected.projected =>
    simp only [Definition.projected.injEq, and_true] at outline
    simp only [dependencies, outline]
  case temporary.temporary => rfl

/-- A definition has no other dependencies than one with the same outline that has its condition,
or any condition in place of none.
-/
theorem dependencies_subset {definition other : Definition} {id dep : VarId}
    (outline : definition.outline = other.outline)
    (restriction
      : definition.restriction? = other.restriction? ∨ definition.restriction? = none)
    (member : dep ∈ definition.dependencies id)
    : dep ∈ other.dependencies id := by
  rcases restriction with same | absent
  · rwa [← dependencies_eq outline same]
  · cases definition <;> cases other <;> simp only [Definition.outline, reduceCtorEq] at outline
    case node.node left right =>
      simp only [restriction?] at absent
      simp [dependencies, absent, restrictionVariables] at member
    case relationship.relationship left right =>
      simp only [Definition.relationship.injEq, RelationshipVar.mk.injEq] at outline
      simp only [restriction?] at absent
      simp only [dependencies, absent, restrictionVariables, Option.elim_none, NameSet.mem_erase,
        NameSet.mem_insert, NameSet.not_mem_empty, or_false, outline.1, outline.2.1] at member ⊢
      exact ⟨member.1.imp_right Or.inl, member.2⟩
    case path.path => simpa only [outline] using member
    case projected.projected =>
      simp only [Definition.projected.injEq, and_true] at outline
      simpa only [dependencies, outline] using member
    case temporary.temporary => simpa only [dependencies] using member

/-- The variable that a definition is another name of is one of its dependencies. -/
theorem target?_mem_dependencies {definition : Definition} (id : VarId) {target : VarId}
    (named : definition.target? = some target)
    : target ∈ definition.dependencies id := by
  cases definition with
  | projected expr type =>
      cases expr <;> simp_all [target?, dependencies]
  | _ => simp [target?] at named

/-- A node or relationship depends on what its condition refers to, and a relationship on its ends.
-/
theorem mem_dependencies_of_isElement {definition : Definition} {id dep : VarId}
    (element : definition.isElement) (member : dep ∈ definition.dependencies id)
    : dep ≠ id
      ∧ ((∃ condition, definition.restriction? = some condition ∧ dep ∈ condition.references)
          ∨ ∃ rel, definition = .relationship rel ∧ (dep = rel.left ∨ dep = rel.right)) := by
  have restricted {restriction : Option Expr} (member : dep ∈ restrictionVariables restriction)
      : ∃ condition, restriction = some condition ∧ dep ∈ condition.references := by
    cases restriction with
    | none => simp [restrictionVariables] at member
    | some condition => exact ⟨condition, rfl, member⟩
  cases definition with
  | node pattern =>
      simp only [dependencies, NameSet.mem_erase] at member
      exact ⟨member.2, .inl (restricted member.1)⟩
  | relationship rel =>
      simp only [dependencies, NameSet.mem_erase, NameSet.mem_insert] at member
      refine ⟨member.2, ?_⟩
      rcases member.1 with right | left | condition
      · exact .inr ⟨rel, rfl, .inr right⟩
      · exact .inr ⟨rel, rfl, .inl left⟩
      · exact .inl (restricted condition)
  | _ => simp [isElement] at element

end Definition

/-- A later table has every variable of an earlier one, in the same scope and with the same
outline; its definition may only have lost its condition.
-/
structure VarTable.GrowsTo (table later : VarTable) : Prop where
  kept
    : ∀ {id var},
        table.get? id = some var
        → ∃ other,
            later.get? id = some other
            ∧ other.scope = var.scope
            ∧ other.definition.outline = var.definition.outline
            ∧ (other.definition.restriction? = var.definition.restriction?
                ∨ other.definition.restriction? = none)

namespace VarTable.GrowsTo

theorem refl (table : VarTable) : table.GrowsTo table :=
  ⟨fun found => ⟨_, found, rfl, rfl, .inl rfl⟩⟩

theorem trans {first second third : VarTable} (left : first.GrowsTo second)
    (right : second.GrowsTo third)
    : first.GrowsTo third := by
  refine ⟨fun found => ?_⟩
  obtain ⟨_, found, scope, outline, restriction⟩ := left.kept found
  obtain ⟨last, found, scope', outline', restriction'⟩ := right.kept found
  refine ⟨last, found, scope'.trans scope, outline'.trans outline, ?_⟩
  rcases restriction' with same | absent
  · exact restriction.imp same.trans same.trans
  · exact .inr absent

/-- What a variable is another name of stays. -/
theorem target? {table later : VarTable} (grows : table.GrowsTo later) {id : VarId}
    (declared : (table.get? id).isSome)
    : (later.definition? id).bind Definition.target?
      = (table.definition? id).bind Definition.target? := by
  obtain ⟨var, found⟩ := Option.isSome_iff_exists.mp declared
  obtain ⟨other, found', -, outline, -⟩ := grows.kept found
  simp only [VarTable.definition?, found, found', Option.map_some, Option.bind_some]
  rw [← Definition.target?_outline other.definition, outline, Definition.target?_outline]

/-- A variable with a new id leaves the others as they are. -/
theorem insert {table : VarTable} {var : Variable} (new : table.get? var.id = none)
    : table.GrowsTo (table.insert var) := by
  refine ⟨fun {id old} found => ?_⟩
  have different : id ≠ var.id := by
    rintro rfl
    simp [new] at found
  exact ⟨old, by simp [VarTable.get?_insert, different, found], rfl, rfl, .inl rfl⟩

/-- A definition may be replaced by one with the same outline and the same condition or none. -/
theorem redefine {table : VarTable} {id : VarId} {var : Variable} {definition : Definition}
    (found : table.get? id = some var) (outline : definition.outline = var.definition.outline)
    (restriction
      : definition.restriction? = var.definition.restriction? ∨ definition.restriction? = none)
    : table.GrowsTo (table.redefine id definition) := by
  refine ⟨fun {other old} present => ?_⟩
  by_cases same : other = id
  · subst same
    obtain rfl : var = old := Option.some.inj (found.symm.trans present)
    exact ⟨{ var with definition }, by simp [VarTable.get?_redefine, found], rfl, outline,
      restriction⟩
  · exact ⟨old, by simp [VarTable.get?_redefine, same, present], rfl, rfl, .inl rfl⟩

end VarTable.GrowsTo

end CypherSql.Plan
