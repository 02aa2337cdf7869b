import CypherSql.Proofs.Inlining.Definitions
import CypherSql.Proofs.Inlining.Resolved
import CypherSql.Proofs.Paths.Lengths
import CypherSql.Proofs.VariableModel

/-! Variables stand for the same paths until functions are simplified, and while they are. So what
is a constant once that is done can be told from the variables as they were collected.
-/

namespace CypherSql.Plan

variable {vars later : VarTable} {order declared : List VarId} {id target : VarId}

/-- The hops and elements of a path. -/
def Definition.path? : Definition → Option (Nat × List VarId)
  | .path hops elements => some (hops, elements)
  | _ => none

theorem pathOf?_eq (vars : VarTable) (id : VarId)
    : pathOf? vars id = (vars.definition? (vars.resolve id)).bind Definition.path? := by
  unfold pathOf?
  cases vars.definition? (vars.resolve id) with
  | none => rfl
  | some definition => cases definition <;> rfl

theorem Definition.path?_outline (definition : Definition)
    : definition.outline.path? = definition.path? := by
  cases definition <;> rfl

/-- Another name of a variable stands for the same path. -/
theorem VarTable.Ordered.pathOf?_of_target (ordered : vars.Ordered order)
    (next : vars.target? id = some target)
    : pathOf? vars id = pathOf? vars target := by
  rw [pathOf?_eq, pathOf?_eq, ordered.resolve_of_target next]

theorem pathOf?_of_target_none (last : vars.target? id = none)
    : pathOf? vars id = (vars.definition? id).bind Definition.path? := by
  rw [pathOf?_eq, VarTable.Ordered.resolve_of_target_none last]

/-- In a table that refines a model variables stand for the paths that were collected. -/
theorem QueryModel.Refined.pathOf?_eq {query : QueryModel} {catalog : Catalog} {typed : Bool}
    (refined : query.Refined catalog typed vars) (id : VarId)
    : pathOf? vars id = pathOf? query.vars id := by
  rw [Plan.pathOf?_eq, Plan.pathOf?_eq, refined.resolve]
  cases found : vars.get? (query.vars.resolve id) with
  | some var =>
      obtain ⟨old, present, -, outline, -⟩ := refined.collected found
      rw [VarTable.definition?_of_get? found, VarTable.definition?_of_get? present,
        Option.bind_some, Option.bind_some, ← Definition.path?_outline, outline,
        Definition.path?_outline]
  | none =>
      have absent : query.vars.get? (query.vars.resolve id) = none := by
        cases present : query.vars.get? (query.vars.resolve id) with
        | none => rfl
        | some old =>
            obtain ⟨var, found', -⟩ := refined.grows.kept present
            simp [found] at found'
      simp [VarTable.definition?, found, absent]

/-- The table is coherent, and its variables that are no other names are scalars unless they are
nodes, relationships or paths.
-/
structure VarTable.Typed (declared : List VarId) (vars : VarTable) : Prop where
  coherent : vars.Coherent declared
  scalars
    : ∀ id var expr type,
        vars.get? id = some var
        → var.definition = .projected expr type
        → (∀ target, expr ≠ .var target)
        → type = some .scalar

theorem QueryModel.Refined.typed {query : QueryModel} {catalog : Catalog}
    (refined : query.Refined catalog true vars) (inOrder : query.vars.Ordered declared)
    : vars.Typed declared where
  coherent := refined.coherent inOrder
  scalars := fun id var expr type found projects noName => by
    have agrees := refined.agrees id var found
    rw [projects] at agrees
    exact agrees rfl noName

/-- A variable that projects anything but a variable is no node or relationship. -/
theorem VarTable.Typed.isEntity_eq_false (typed : vars.Typed declared)
    {var : Variable} {expr : Expr}
    {type : Option VarType} (found : vars.get? id = some var)
    (projects : var.definition = .projected expr type) (noName : ∀ target, expr ≠ .var target)
    : isEntity vars id = false := by
  have defined := VarTable.definition?_of_get? found
  have last : vars.target? id = none := by
    rw [VarTable.target?, defined, projects]
    cases expr with
    | var target => exact absurd rfl (noName target)
    | _ => rfl
  have scalar := typed.scalars id var expr type found projects noName
  simp [isEntity, VarTable.type?, VarTable.Ordered.resolve_of_target_none last, defined,
    projects, scalar, Definition.type?]

/-- A variable that is no other name may project something else. -/
theorem VarTable.Typed.redefine {var : Variable} {expr changed : Expr} {type : Option VarType}
    (typed : vars.Typed declared) (found : vars.get? id = some var)
    (projects : var.definition = .projected expr type) (noName : ∀ target, expr ≠ .var target)
    (coherent : ((vars.redefine id (.projected changed type)).refresh id).Coherent declared)
    : ((vars.redefine id (.projected changed type)).refresh id).Typed declared := by
  refine ⟨coherent, fun other present expr' type' found' projects' noName' => ?_⟩
  rw [VarTable.get?_refresh, VarTable.get?_redefine_of_get? found] at found'
  split at found'
  · obtain rfl := Option.some.inj found'
    obtain ⟨rfl, rfl⟩ := Definition.projected.inj projects'
    exact typed.scalars id var expr type found projects noName
  · exact typed.scalars other present expr' type' found' projects' noName'

/-- A name of a node or relationship is no constant. -/
theorem VarTable.Typed.constant?_eq_none (typed : vars.Typed declared)
    (entity : isEntity vars id = true)
    : constant? vars id = none := by
  cases found : constant? vars id with
  | none => rfl
  | some constant =>
      obtain ⟨var, type, present, projects, -, isConstant⟩ := constant?_eq_some found
      have noName (target : VarId) : constant.1 ≠ .var target := by
        intro same
        simp [same, Expr.isConstant] at isConstant
      have noEntity := typed.isEntity_eq_false present projects noName
      rw [entity] at noEntity
      cases noEntity

/-- What a name of a node or relationship stands for is one itself. -/
theorem VarTable.Ordered.isEntity_resolve (ordered : vars.Ordered order)
    (entity : isEntity vars id = true)
    : isEntity vars (vars.resolve id) = true := by
  rwa [isEntity, VarTable.type?, ordered.resolve_resolve]

/-- Variables stand for the paths they stood for. -/
def VarTable.KeepsPaths (declared : List VarId) (vars later : VarTable) : Prop :=
  vars.Typed declared → later.Typed declared ∧ ∀ id, pathOf? later id = pathOf? vars id

theorem VarTable.KeepsPaths.threads : Threads (VarTable.KeepsPaths declared) where
  refl := fun _ typed => ⟨typed, fun _ => rfl⟩
  trans := by
    intro first second third left right typed
    obtain ⟨typed, same⟩ := left typed
    obtain ⟨typed, same'⟩ := right typed
    exact ⟨typed, fun id => (same' id).trans (same id)⟩

/-- Only nodes and relationships come up as variables where functions are simplified. -/
theorem isEntity_of_simplified {expr : Expr}
    (becomes : expr.mapParts (simplified vars) = .var target)
    (different : expr ≠ .var target)
    : isEntity vars target = true := by
  cases expr with
  | call name args =>
      rw [Expr.mapParts_call] at becomes
      have simplifies := simplifies_call vars name (args.map (Expr.mapParts (simplified vars)))
      rw [becomes] at simplifies
      cases simplifies with
      | entity _ isEntity => exact isEntity
  | list items =>
      rw [Expr.mapParts_list] at becomes
      cases becomes
  | map entries =>
      rw [Expr.mapParts_map] at becomes
      cases becomes
  | aggregate function distinct args =>
      rw [Expr.mapParts_aggregate] at becomes
      cases function <;> cases becomes
  | var id => exact absurd becomes different
  | _ => cases becomes

/-- Paths stay where a variable projects a simplified expression. Induction over the chains of names
in the new table: only the changed variable leads elsewhere, from no path to a node or relationship.
-/
theorem pathOf?_redefine_simplified {var : Variable} {expr : Expr} {type : Option VarType}
    (ordered : vars.Ordered order) (found : vars.get? id = some var)
    (projects : var.definition = .projected expr type)
    (different : expr.mapParts (simplified vars) ≠ expr) {orderLater : List VarId}
    (orderedLater
      : ((vars.redefine id (.projected (expr.mapParts (simplified vars)) type)).refresh id).Ordered
          orderLater)
    (other : VarId)
    : pathOf?
      ((vars.redefine id (.projected (expr.mapParts (simplified vars)) type)).refresh id) other
      = pathOf? vars other := by
  generalize becomes : expr.mapParts (simplified vars) = changed at different orderedLater ⊢
  have noName (target : VarId) : expr ≠ .var target := by
    rintro rfl
    exact different becomes.symm
  have definition (other : VarId)
      : ((vars.redefine id (.projected changed type)).refresh id).definition? other
        = if other = id then some (.projected changed type) else vars.definition? other := by
    rw [VarTable.definition?, VarTable.get?_refresh, VarTable.get?_redefine_of_get? found]
    split <;> rfl
  have before : pathOf? vars id = none := by
    have last : vars.target? id = none := by
      rw [VarTable.target?, VarTable.definition?_of_get? found, projects]
      cases expr with
      | var target => exact absurd rfl (noName target)
      | _ => rfl
    rw [pathOf?_of_target_none last, VarTable.definition?_of_get? found, projects]
    rfl
  induction other using orderedLater.chain_induction with
  | last other last =>
      rw [pathOf?_of_target_none last, definition]
      split
      · rename_i same
        rw [same, before]
        rfl
      · rename_i apart
        rw [VarTable.target?, definition, if_neg apart] at last
        rw [pathOf?_of_target_none last]
  | next other target next ih =>
      rw [orderedLater.pathOf?_of_target next, ih]
      rw [VarTable.target?, definition] at next
      split at next
      · rename_i same
        have named : changed = .var target :=
          Option.some.inj (Definition.projection?_of_target? next)
        rw [same, before]
        refine pathOf?_of_isEntity (isEntity_of_simplified (becomes.trans named) ?_)
        exact noName target
      · rw [ordered.pathOf?_of_target next]

/-- Simplifying the functions of what a variable projects keeps the paths. -/
theorem simplifyFunctions_keepsPaths
    : RefreshesKeep Modality.ofOk (fun vars _ expr => expr.mapPartsM (simplifyFunction vars))
        (VarTable.KeepsPaths declared) := by
  intro vars site expr changed succeeded id var type found projects different typed
  have coherent := simplifyFunctions_within.coherent
    (fun _ _ _ same => .inl (Except.ok.inj same).symm) typed.coherent found projects site changed
    succeeded different
  obtain ⟨_, -, ordered⟩ := typed.coherent.inOrder
  obtain ⟨_, -, orderedLater⟩ := coherent.inOrder
  obtain rfl : expr.mapParts (simplified vars) = changed := Expr.eq_mapParts_of_mapPartsM succeeded
  refine ⟨typed.redefine found projects ?_ coherent,
    pathOf?_redefine_simplified ordered found projects different orderedLater⟩
  rintro target rfl
  exact different rfl

/-- What becomes of the variables where functions are simplified. -/
theorem Draft.simplifyFunctions_visits {draft later : Draft}
    (succeeded : simplifyFunctions draft = .ok later)
    : VarTable.Visits (VarTable.KeepsPaths declared)
        (fun vars _ old new => old.mapParts (simplified vars) = new) draft.vars
          draft.vars.ids draft.vars
        later.vars :=
  draft.mapExprsM_visits Modality.ofOk VarTable.KeepsPaths.threads simplifyFunctions_keepsPaths
    (fun _ _ _ _ succeeded => Expr.eq_mapParts_of_mapPartsM succeeded) Modality.ofOk_any
      later succeeded

/-- The constant that a variable projects once the lengths of paths are numbers, with the scope that
declares it.
-/
def VarTable.measured? (vars : VarTable) (id : VarId) : Option (Expr × Nat) := do
  let var ← vars.get? id
  let expr ← var.definition.projection?
  let value ← expr.measured? vars
  return (value, var.scope)

theorem VarTable.measured?_eq_some {value : Expr × Nat}
    : vars.measured? id = some value
      ↔ ∃ var expr,
          vars.get? id = some var
          ∧ var.definition.projection? = some expr
          ∧ expr.measured? vars = some value.1
          ∧ var.scope = value.2 := by
  simp only [VarTable.measured?, Option.bind_eq_bind, Option.bind_eq_some_iff, Option.pure_def,
    Option.some.injEq, Prod.ext_iff]
  constructor
  · rintro ⟨var, found, expr, projects, _, measured, rfl, scope⟩
    exact ⟨var, expr, found, projects, measured, scope⟩
  · rintro ⟨var, expr, found, projects, measured, scope⟩
    exact ⟨var, found, expr, projects, value.1, measured, rfl, scope⟩

theorem VarTable.isConstant_of_measured? {value : Expr} {scope : Nat}
    (measured : vars.measured? id = some (value, scope))
    : value.isConstant = true := by
  obtain ⟨_, _, _, _, constant, _⟩ := VarTable.measured?_eq_some.mp measured
  exact Expr.isConstant_of_measured? constant

/-- A variable that comes to project a constant is no node or relationship. -/
theorem QueryModel.Refined.isEntity_eq_false {query : QueryModel} {catalog : Catalog}
    (refined : query.Refined catalog true vars) (inOrder : query.vars.Ordered declared)
    (measured : query.vars.measured? id ≠ none)
    : isEntity vars id = false := by
  obtain ⟨value, measured⟩ := Option.ne_none_iff_exists'.mp measured
  obtain ⟨old, expr, present, source, constant, -⟩ := VarTable.measured?_eq_some.mp measured
  obtain ⟨var, found, -, outline, -⟩ := refined.grows.kept present
  rw [← Definition.projection?_outline, ← outline, Definition.projection?_outline] at source
  cases kind : var.definition with
  | projected other type =>
      rw [kind] at source
      obtain rfl := Option.some.inj source
      refine (refined.typed inOrder).isEntity_eq_false found kind ?_
      rintro target rfl
      cases constant
  | _ =>
      rw [kind] at source
      cases source

/-- Once functions are simplified, the constants are those that can be told from the variables as
they were collected.
-/
theorem QueryModel.Refined.constant?_simplifyFunctions {query : QueryModel} {catalog : Catalog}
    {draft later : Draft} (refined : query.Refined catalog true draft.vars)
    (inOrder : query.vars.Ordered declared) (succeeded : simplifyFunctions draft = .ok later)
    (id : VarId)
    : constant? later.vars id = query.vars.measured? id := by
  have visits : VarTable.Visits (VarTable.KeepsPaths declared) _ _ _ _ later.vars :=
    Draft.simplifyFunctions_visits succeeded
  cases present : query.vars.get? id with
  | none =>
      have absent : draft.vars.get? id = none := by
        cases found : draft.vars.get? id with
        | none => rfl
        | some var =>
            have declared := refined.same id (by simp [found])
            simp [present] at declared
      rw [constant?_of_get?_none (visits.absent absent), VarTable.measured?, present]
      rfl
  | some old =>
      obtain ⟨var, found, scope, outline, -⟩ := refined.grows.kept present
      obtain ⟨middle, definition, kept, rewritten, found'⟩ := visits.get? found
      have projection : var.definition.projection? = old.definition.projection? := by
        rw [← Definition.projection?_outline, outline, Definition.projection?_outline]
      have paths (id : VarId) : pathOf? middle id = pathOf? query.vars id :=
        ((kept (refined.typed inOrder)).2 id).trans (refined.pathOf?_eq id)
      simp only [constant?, VarTable.measured?, found', present, ← projection, ← scope,
        Option.bind_eq_bind, Option.bind_some]
      cases kind : var.definition with
      | projected expr type =>
          rw [kind] at rewritten
          cases rewritten with
          | projected becomes =>
              subst becomes
              simp only [Definition.projection?, Option.bind_some, expr.measured?_eq paths,
                Expr.ifConstant]
              split <;> rfl
          | other unprojected => cases unprojected
      | _ =>
          rw [kind] at rewritten
          cases rewritten
          rfl

/-- Simplifying properties makes no constants. -/
theorem leavesConstants_simplifyProperty (vars : VarTable)
    : Expr.LeavesConstants (simplifyProperty vars) where
  literal := fun _ => rfl
  list := fun _ => rfl
  map := fun _ => rfl
  others := fun expr notConstant => by
    unfold simplifyProperty
    split
    · rfl
    · exact notConstant

/-- Simplifying properties leaves the constants. -/
theorem constant?_simplifyProperties (draft : Draft) (id : VarId)
    : constant? (simplifyProperties draft).vars id = constant? draft.vars id := by
  have visits : VarTable.Visits (fun _ _ => True)
      (fun vars _ old new => old.mapParts (simplifyProperty vars) = new) draft.vars draft.vars.ids
      draft.vars (simplifyProperties draft).vars :=
    draft.mapExprsM_visits Modality.ofId ⟨fun _ => trivial, fun _ _ _ _ _ => trivial⟩
      (fun _ _ _ _ _ _ _ _ _ => trivial) (fun _ _ _ => rfl) fun _ => trivial
  cases found : draft.vars.get? id with
  | none => rw [constant?_of_get?_none found, constant?_of_get?_none (visits.absent found)]
  | some var =>
      obtain ⟨middle, definition, -, rewritten, found'⟩ := visits.get? found
      simp only [constant?, found, found', Option.bind_eq_bind, Option.bind_some]
      cases kind : var.definition with
      | projected expr type =>
          rw [kind] at rewritten
          cases rewritten with
          | projected becomes =>
              subst becomes
              have leaves := leavesConstants_simplifyProperty middle
              simp only [Definition.projection?, Option.bind_some, leaves.isConstant_mapParts expr]
              split
              · rename_i constant
                rw [leaves.mapParts_eq_self constant]
              · rfl
          | other unprojected => cases unprojected
      | _ =>
          rw [kind] at rewritten
          cases rewritten
          rfl

end CypherSql.Plan
