import CypherSql.Proofs.Renaming.Expressions
import CypherSql.Proofs.Variables.Lookup

/-! Tables of variables under a renaming of their ids: what a lookup finds, and what becomes of the
table after each change.
-/

namespace CypherSql.Plan

variable {ρ : Renaming}

/-- The node with each variable of its condition under its new id. -/
def NodeVar.rename (ρ : Renaming) (node : NodeVar) : NodeVar :=
  { node with restriction := node.restriction.map (Expr.rename ρ) }

/-- The relationship with each variable of it under its new id. -/
def RelationshipVar.rename (ρ : Renaming) (rel : RelationshipVar) : RelationshipVar :=
  { rel with
    left := ρ rel.left
    right := ρ rel.right
    restriction := rel.restriction.map (Expr.rename ρ) }

namespace Definition

/-- A definition is another one with each variable under its new id. The text of a column without a
name may be any.
-/
inductive Renamed (ρ : Renaming) : Definition → Definition → Prop where
  | node (node : NodeVar) : Renamed ρ (.node node) (.node (node.rename ρ))
  | relationship (rel : RelationshipVar)
    : Renamed ρ (.relationship rel) (.relationship (rel.rename ρ))
  | path (hops : Nat) (elements : List VarId)
    : Renamed ρ (.path hops elements) (.path hops (elements.map ρ))
  | projected (expr : Expr) (type : Option VarType)
    : Renamed ρ (.projected expr type) (.projected (expr.rename ρ) type)
  | temporary (column other : String) : Renamed ρ (.temporary column) (.temporary other)

variable {definition other : Definition}

theorem Renamed.type?_eq (renamed : definition.Renamed ρ other)
    : other.type? = definition.type? := by
  cases renamed <;> rfl

theorem Renamed.target?_eq (renamed : definition.Renamed ρ other)
    : other.target? = definition.target?.map ρ := by
  cases renamed with
  | projected expr type => cases expr <;> rfl
  | _ => rfl

theorem Renamed.projection?_eq (renamed : definition.Renamed ρ other)
    : other.projection? = definition.projection?.map (Expr.rename ρ) := by
  cases renamed <;> rfl

theorem Renamed.isTemporary_eq (renamed : definition.Renamed ρ other)
    : other.isTemporary = definition.isTemporary := by
  cases renamed <;> rfl

theorem restrictionVariables_rename (restriction : Option Expr)
    : (restrictionVariables restriction).Renamed ρ
        (restrictionVariables (restriction.map (Expr.rename ρ))) := by
  cases restriction with
  | none => exact .empty
  | some expr => exact expr.references_rename ρ

theorem Renamed.dependencies (renamed : definition.Renamed ρ other) (id : VarId)
    : (definition.dependencies id).Renamed ρ (other.dependencies (ρ id)) := by
  cases renamed with
  | node node => exact (restrictionVariables_rename node.restriction).erase id
  | relationship rel =>
      have inside := restrictionVariables_rename (ρ := ρ) rel.restriction
      exact ((inside.insert rel.left).insert rel.right).erase id
  | path hops elements => exact .ofList elements
  | projected expr type => exact expr.references_rename ρ
  | temporary column other => exact .empty

end Definition

/-- A variable is another one under its new id. The name of a column without a name may be any. -/
structure Variable.Renamed (ρ : Renaming) (var other : Variable) : Prop where
  id : other.id = ρ var.id
  scope : other.scope = var.scope
  definition : var.definition.Renamed ρ other.definition
  name : var.definition.isTemporary = false → other.name = ρ var.name

namespace VarTable

/-- The variable names an expression. -/
def Projects (vars : VarTable) (id : VarId) : Prop :=
  ∃ expr type, vars.definition? id = some (.projected expr type)

/-- A table holds the variables of another one under their new ids. Only allowed variables name
expressions.
-/
structure Renamed (ρ : Renaming) (allowed : VarId → Prop) (vars other : VarTable) : Prop where
  entries : vars.vars.Renamed ρ (Variable.Renamed ρ) other.vars
  dependencies : vars.dependencies.Renamed ρ (NameSet.Renamed ρ) other.dependencies
  within : ∀ id, vars.Projects id → allowed id

variable {allowed : VarId → Prop} {vars other : VarTable}

theorem renamed_empty : Renamed ρ allowed empty empty where
  entries := .empty
  dependencies := .empty
  within := by
    rintro id ⟨expr, type, found⟩
    cases found

namespace Renamed

theorem restrict (renamed : vars.Renamed ρ allowed other) : vars.Renamed ρ vars.Projects other :=
  { renamed with within := fun _ projects => projects }

theorem get? (renamed : vars.Renamed ρ allowed other) (id : VarId)
    : Option.Rel (Variable.Renamed ρ) (vars.get? id) (other.get? (ρ id)) :=
  renamed.entries id

theorem definition? (renamed : vars.Renamed ρ allowed other) (id : VarId)
    : Option.Rel (Definition.Renamed ρ) (vars.definition? id) (other.definition? (ρ id)) :=
  rel_map (renamed.get? id) fun _ _ same => same.definition

theorem size_eq (renamed : vars.Renamed ρ allowed other) : other.size = vars.size :=
  renamed.entries.size

/-- Other names lead to variables that correspond, by induction over the number of times. -/
theorem resolveWithin_eq (renamed : vars.Renamed ρ allowed other) (times : Nat) (id : VarId)
    : other.resolveWithin times (ρ id) = ρ (vars.resolveWithin times id) := by
  induction times generalizing id with
  | zero => rfl
  | succ times ih =>
      rcases rel_cases (renamed.definition? id)
        with ⟨missing, gone⟩ | ⟨definition, new, found, there, same⟩
      · simp only [resolveWithin, missing, gone, Option.bind_none]
      · simp only [resolveWithin, found, there, Option.bind_some, same.target?_eq]
        cases definition.target? with
        | none => rfl
        | some target => exact ih target

@[simp]
theorem resolve_eq (renamed : vars.Renamed ρ allowed other) (id : VarId)
    : other.resolve (ρ id) = ρ (vars.resolve id) := by
  rw [resolve, resolve, renamed.size_eq]
  exact renamed.resolveWithin_eq _ id

theorem type?_eq (renamed : vars.Renamed ρ allowed other) (id : VarId)
    : other.type? (ρ id) = vars.type? id := by
  rw [VarTable.type?, VarTable.type?, renamed.resolve_eq]
  rcases rel_cases (renamed.definition? (vars.resolve id)) with
    ⟨missing, gone⟩ | ⟨definition, new, found, there, same⟩
  · rw [missing, gone]
  · rw [found, there]
    exact same.type?_eq

theorem node?_eq (renamed : vars.Renamed ρ allowed other) (id : VarId)
    : other.node? (ρ id) = (vars.node? id).map (NodeVar.rename ρ) := by
  rcases rel_cases (renamed.definition? id)
    with ⟨missing, gone⟩ | ⟨definition, new, found, there, same⟩
  · simp only [node?, missing, gone, Option.map_none]
  · simp only [node?, found, there]
    cases same <;> rfl

theorem relationship?_eq (renamed : vars.Renamed ρ allowed other) (id : VarId)
    : other.relationship? (ρ id) = (vars.relationship? id).map (RelationshipVar.rename ρ) := by
  rcases rel_cases (renamed.definition? id)
    with ⟨missing, gone⟩ | ⟨definition, new, found, there, same⟩
  · simp only [relationship?, missing, gone, Option.map_none]
  · simp only [relationship?, found, there]
    cases same <;> rfl

/-- Dependencies put in for variables that correspond correspond. -/
theorem recordDependencies {dependencies dependenciesOther : NameMap NameSet}
    {var varOther : Variable}
    (renamed : dependencies.Renamed ρ (NameSet.Renamed ρ) dependenciesOther)
    (same : var.Renamed ρ varOther)
    : (recordDependencies dependencies var).Renamed ρ (NameSet.Renamed ρ)
        (recordDependencies dependenciesOther varOther) := by
  simp only [VarTable.recordDependencies, same.definition.isTemporary_eq]
  split
  · exact renamed
  · have inside := same.definition.dependencies var.id
    rw [same.id]
    exact renamed.insert var.id inside

theorem insert (renamed : vars.Renamed ρ allowed other) {var varOther : Variable}
    (same : var.Renamed ρ varOther)
    (permitted : ∀ expr type, var.definition = .projected expr type → allowed var.id)
    : (vars.insert var).Renamed ρ allowed (other.insert varOther) where
  entries := by
    have inserted := renamed.entries.insert var.id same
    rw [← same.id] at inserted
    exact inserted
  dependencies := recordDependencies renamed.dependencies same
  within := by
    rintro id ⟨expr, type, found⟩
    rw [VarTable.definition?, get?_insert] at found
    split at found
    · rename_i own
      exact own ▸ permitted expr type (Option.some.inj found)
    · exact renamed.within id ⟨expr, type, found⟩

theorem remove (renamed : vars.Renamed ρ allowed other) (id : VarId)
    : (vars.remove id).Renamed ρ allowed (other.remove (ρ id)) where
  entries := renamed.entries.erase id
  dependencies := (renamed.dependencies.erase id).mapValues fun _ _ same => same.erase id
  within := by
    rintro x ⟨expr, type, found⟩
    rw [VarTable.definition?, get?_remove] at found
    split at found
    · cases found
    · exact renamed.within x ⟨expr, type, found⟩

/-- A definition may be replaced by one that is temporary and names an expression only if the old
one did.
-/
theorem redefine (renamed : vars.Renamed ρ allowed other) {id : VarId}
    {old definition definitionOther : Definition} (found : vars.definition? id = some old)
    (same : definition.Renamed ρ definitionOther)
    (temporary : definition.isTemporary = old.isTemporary)
    (projection : definition.projection?.isSome = old.projection?.isSome)
    : (vars.redefine id definition).Renamed ρ allowed (other.redefine (ρ id) definitionOther) where
  entries := by
    intro x
    have all := renamed.entries x
    simp only [VarTable.redefine, NameMap.get?_modify, ρ.eq_iff]
    split
    · rcases rel_cases (renamed.get? id) with ⟨missing, gone⟩ | ⟨var, new, present, there, one⟩
      · rw [VarTable.definition?, missing] at found
        cases found
      · rw [VarTable.definition?, present] at found
        obtain rfl := Option.some.inj found
        rw [VarTable.get?] at present there
        rw [present, there]
        exact .some ⟨one.id, one.scope, same, fun kept => one.name (temporary ▸ kept)⟩
    · exact all
  dependencies := renamed.dependencies
  within := by
    rintro x ⟨expr, type, projects⟩
    by_cases own : x = id
    · subst own
      obtain ⟨var, present, rfl⟩ := definition?_eq_some.mp found
      rw [definition?_redefine_self present] at projects
      obtain rfl := Option.some.inj projects
      cases kind : var.definition with
      | projected expr type => exact renamed.within x ⟨expr, type, kind ▸ found⟩
      | _ =>
          rw [kind] at projection
          cases projection
    · rw [definition?_redefine_of_ne own] at projects
      exact renamed.within x ⟨expr, type, projects⟩

theorem refresh (renamed : vars.Renamed ρ allowed other) (id : VarId)
    : (vars.refresh id).Renamed ρ allowed (other.refresh (ρ id)) := by
  rcases rel_cases (renamed.get? id) with ⟨missing, gone⟩ | ⟨var, new, found, there, same⟩
  · simpa only [VarTable.refresh, missing, gone] using renamed
  · simp only [VarTable.refresh, found, there]
    exact { renamed with dependencies := recordDependencies renamed.dependencies same }

/-- Other variables depend on a variable if others depend on it under its new id. -/
theorem dependents_isEmpty (renamed : vars.Renamed ρ allowed other) (id : VarId)
    : (other.dependents (ρ id)).isEmpty = (vars.dependents id).isEmpty := by
  have depends (table : VarTable) (id : VarId)
      : (table.dependents id).isEmpty = false
        ↔ ∃ name inside, table.dependencies.get? name = some inside ∧ id ∈ inside := by
    simp only [VarTable.dependents, ← Bool.not_eq_true, List.isEmpty_iff, List.map_eq_nil_iff,
      List.filter_eq_nil_iff, decide_eq_true_eq, not_forall, not_not, Prod.exists, exists_prop,
      NameMap.mem_entries]
  have same : (other.dependents (ρ id)).isEmpty = false ↔ (vars.dependents id).isEmpty = false := by
    rw [depends, depends]
    constructor
    · rintro ⟨name, inside, found, member⟩
      obtain ⟨old, rfl⟩ := ρ.exists_eq name
      rcases rel_cases (renamed.dependencies old) with ⟨-, gone⟩ | ⟨set, new, present, there, one⟩
      · rw [gone] at found
        cases found
      · obtain rfl := Option.some.inj (there.symm.trans found)
        exact ⟨old, set, present, (one id).mp member⟩
    · rintro ⟨name, inside, found, member⟩
      rcases rel_cases (renamed.dependencies name)
        with ⟨missing, -⟩ | ⟨set, new, present, there, one⟩
      · rw [missing] at found
        cases found
      · obtain rfl := Option.some.inj (present.symm.trans found)
        exact ⟨ρ name, new, there, (one id).mpr member⟩
  cases left : (vars.dependents id).isEmpty with
  | false => exact same.mpr left
  | true =>
      cases right : (other.dependents (ρ id)).isEmpty with
      | true => rfl
      | false => exact absurd (same.mp right) (by simp [left])

end Renamed

/-- The new ids of allowed variables are in the order of the old ones. -/
def KeepsOrder (ρ : Renaming) (allowed : VarId → Prop) : Prop :=
  ∀ id other, allowed id → allowed other → id < other → ρ id < ρ other

/-- The variable names an expression. -/
def projects (vars : VarTable) (id : VarId) : Bool :=
  ((vars.definition? id).bind Definition.projection?).isSome

theorem projects_iff {id : VarId} : vars.projects id = true ↔ vars.Projects id := by
  simp only [projects, Projects]
  cases vars.definition? id with
  | none => simp
  | some definition => cases definition <;> simp [Definition.projection?]

theorem Renamed.projects_eq (renamed : vars.Renamed ρ allowed other) (id : VarId)
    : other.projects (ρ id) = vars.projects id := by
  simp only [projects]
  rcases rel_cases (renamed.definition? id)
    with ⟨missing, gone⟩ | ⟨definition, new, found, there, same⟩
  · rw [missing, gone]
  · rw [found, there, Option.bind_some, Option.bind_some, same.projection?_eq, Option.isSome_map]

/-- Lists that ascend strictly are the same if they have the same members. -/
theorem eq_of_ascending {left right : List String} (ascending : left.Pairwise (· < ·))
    (ascendingRight : right.Pairwise (· < ·)) (same : left.Perm right)
    : left = right :=
  same.eq_of_pairwise (fun _ _ _ _ before after => absurd before (String.lt_asymm after)) ascending
    ascendingRight

/-- Where the renaming keeps their order, the variables that name expressions are visited in the
same order.
-/
theorem Renamed.projecting_eq (renamed : vars.Renamed ρ allowed other)
    (ordered : KeepsOrder ρ allowed)
    : other.ids.filter other.projects = (vars.ids.filter vars.projects).map ρ := by
  have ascending (table : VarTable) : table.ids.Pairwise (· < ·) :=
    List.pairwise_map.mpr table.vars.ordered
  refine eq_of_ascending ((ascending other).filter _) ?_ ?_
  · rw [List.pairwise_map]
    refine ((ascending vars).filter _).imp_of_mem ?_
    intro left right memberLeft memberRight before
    have within {id : VarId} (member : id ∈ vars.ids.filter vars.projects) : allowed id :=
      renamed.within id (projects_iff.mp (List.mem_filter.mp member).2)
    exact ordered left right (within memberLeft) (within memberRight) before
  · have filtered
        : (vars.ids.map ρ).filter other.projects = (vars.ids.filter vars.projects).map ρ := by
      rw [List.filter_map]
      exact congrArg _ (List.filter_congr fun id _ => renamed.projects_eq id)
    rw [← filtered]
    exact renamed.entries.perm.filter _

end VarTable

end CypherSql.Plan
