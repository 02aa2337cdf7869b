import CypherSql.Plan.Tables
import CypherSql.Proofs.Collection.Projections
import CypherSql.Proofs.Variables.Changes

/-! Tables that later steps find out more about. The variables stay as they were collected, so that
everything in reach of a scope stays in reach.
-/

namespace CypherSql.Plan

/-- The model of a query: its variables and scopes as they were collected. -/
structure QueryModel where
  vars : VarTable
  models : List ScopeModel
  collected : Collected vars models

/-- What is found out about a variable agrees with the model: once types are known, an expression
that is no other name is a scalar, and the table of a relationship is the one for its types and the
labels of its ends. No property is known to be read.
-/
def Definition.Agrees (query : QueryModel) (catalog : Catalog) (typed : Bool) : Definition → Prop
  | .projected expr type =>
      typed = true → (∀ target, expr ≠ .var target) → type = some .scalar
  | .node pattern => pattern.required = ∅
  | .relationship rel =>
      rel.required = ∅
      ∧ ∀ binding,
          rel.binding = some binding
          → catalog.relationship rel.types (endpointLabels query.vars rel.left)
              (endpointLabels query.vars rel.right) rel.direction = .ok binding
  | _ => True

/-- A table refines a model: it has the same variables with the same outlines, maybe without their
conditions, and what else it holds agrees with the model.
-/
structure QueryModel.Refined (query : QueryModel) (catalog : Catalog) (typed : Bool)
    (vars : VarTable)
    : Prop where
  grows : query.vars.GrowsTo vars
  same : ∀ id, (vars.get? id).isSome → (query.vars.get? id).isSome
  ordered : ∃ order, vars.Ordered order
  agrees : ∀ id var, vars.get? id = some var → var.definition.Agrees query catalog typed

/-- Nothing that is not found out can disagree. -/
theorem Definition.Unresolved.agrees {query : QueryModel} {catalog : Catalog}
    {definition : Definition} (unresolved : definition.Unresolved)
    : definition.Agrees query catalog false := by
  cases definition with
  | projected expr type => exact nofun
  | node pattern => exact unresolved
  | relationship rel =>
      obtain ⟨unbound, unread⟩ := unresolved
      exact ⟨unread, fun binding found => by simp [unbound] at found⟩
  | _ => trivial

/-- A condition may be dropped together with the dependencies that it brought. -/
theorem VarTable.Ordered.redefine_refresh {vars : VarTable} {order : List VarId} {id : VarId}
    {var : Variable} {definition : Definition} (ordered : vars.Ordered order)
    (found : vars.get? id = some var) (outline : definition.outline = var.definition.outline)
    (restriction
      : definition.restriction? = var.definition.restriction? ∨ definition.restriction? = none)
    : ((vars.redefine id definition).refresh id).Ordered order := by
  have temporary : definition.isTemporary = var.definition.isTemporary := by
    rw [← Definition.isTemporary_outline, outline, Definition.isTemporary_outline]
  refine ordered.replace found temporary fun dep depends => ?_
  exact ordered.precedes found (Definition.dependencies_subset outline restriction depends)

namespace QueryModel.Refined

variable {query : QueryModel} {catalog : Catalog} {typed : Bool} {vars : VarTable} {id : VarId}

/-- The collected variables refine their own model. -/
theorem refl (query : QueryModel) (catalog : Catalog) : query.Refined catalog false query.vars where
  grows := .refl _
  same := fun _ present => present
  ordered := query.collected.ordered
  agrees := fun id var found => (query.collected.unresolved id var found).agrees

/-- Variables stand for what they stood for when they were collected. -/
theorem resolve (refined : query.Refined catalog typed vars) (id : VarId)
    : vars.resolve id = query.vars.resolve id := by
  obtain ⟨order, ordered⟩ := refined.ordered
  obtain ⟨orderBase, orderedBase⟩ := query.collected.ordered
  cases found : query.vars.get? id with
  | some var => exact refined.grows.resolve orderedBase ordered (by simp [found])
  | none =>
      have absent : vars.get? id = none := by
        cases present : vars.get? id with
        | none => rfl
        | some var =>
            have declared := refined.same id (by simp [present])
            simp [found] at declared
      rw [VarTable.Ordered.resolve_of_get?_none found, VarTable.Ordered.resolve_of_get?_none absent]

/-- The collected variable of a later one, in the same scope and with the same outline. -/
theorem collected (refined : query.Refined catalog typed vars) {var : Variable}
    (found : vars.get? id = some var)
    : ∃ old,
        query.vars.get? id = some old
        ∧ var.scope = old.scope
        ∧ var.definition.outline = old.definition.outline
        ∧ (var.definition.restriction? = old.definition.restriction?
            ∨ var.definition.restriction? = none) := by
  obtain ⟨old, present⟩ := Option.isSome_iff_exists.mp (refined.same id (by simp [found]))
  obtain ⟨other, found', rest⟩ := refined.grows.kept present
  obtain rfl : var = other := Option.some.inj (found.symm.trans found')
  exact ⟨old, present, rest⟩

/-- All links of the model are links of the table. -/
theorem linked (refined : query.Refined catalog typed vars) : vars.Linked := by
  obtain ⟨order, ordered⟩ := refined.ordered
  obtain ⟨orderBase, orderedBase⟩ := query.collected.ordered
  exact refined.grows.allLinked orderedBase ordered refined.same query.collected.linked

/-- A definition may be replaced by one that agrees with the model too. -/
theorem redefine (refined : query.Refined catalog typed vars) {var : Variable}
    {definition : Definition}
    (found : vars.get? id = some var) (outline : definition.outline = var.definition.outline)
    (restriction : definition.restriction? = var.definition.restriction?)
    (agrees : definition.Agrees query catalog typed)
    : query.Refined catalog typed (vars.redefine id definition) := by
  obtain ⟨order, ordered⟩ := refined.ordered
  refine {
    grows := refined.grows.trans (.redefine found outline (.inl restriction))
    same := ?_
    ordered := ⟨order, ordered.redefine found outline restriction⟩
    agrees := ?_
  }
  · intro other present
    rw [VarTable.get?_redefine] at present
    split at present
    · rename_i same
      exact same ▸ refined.same id (by simp [found])
    · exact refined.same other present
  · intro other changed present
    rw [VarTable.get?_redefine] at present
    split at present
    · rw [found] at present
      obtain rfl := Option.some.inj present
      exact agrees
    · exact refined.agrees other changed present

/-- A definition may lose its condition, with its dependencies read off again. -/
theorem redefine_refresh (refined : query.Refined catalog typed vars) {var : Variable}
    {definition : Definition} (found : vars.get? id = some var)
    (outline : definition.outline = var.definition.outline)
    (restriction : definition.restriction? = none) (agrees : definition.Agrees query catalog typed)
    : query.Refined catalog typed ((vars.redefine id definition).refresh id) := by
  obtain ⟨order, ordered⟩ := refined.ordered
  have grows := VarTable.GrowsTo.redefine found outline (.inr restriction)
  refine {
    grows := refined.grows.trans ⟨fun old => ?_⟩
    same := ?_
    ordered := ⟨order, ordered.redefine_refresh found outline (.inr restriction)⟩
    agrees := ?_
  }
  · obtain ⟨last, found', rest⟩ := grows.kept old
    exact ⟨last, by rwa [VarTable.get?_refresh], rest⟩
  · intro other present
    rw [VarTable.get?_refresh, VarTable.get?_redefine] at present
    split at present
    · rename_i same
      exact same ▸ refined.same id (by simp [found])
    · exact refined.same other present
  · intro other changed present
    rw [VarTable.get?_refresh, VarTable.get?_redefine] at present
    split at present
    · rw [found] at present
      obtain rfl := Option.some.inj present
      exact agrees
    · exact refined.agrees other changed present

end QueryModel.Refined

/-- The labels of a node. -/
def Definition.labels? : Definition → Option NameSet
  | .node pattern => some pattern.labels
  | _ => none

/-- A table has the labels that were collected. -/
def QueryModel.SameLabels (query : QueryModel) (vars : VarTable) : Prop :=
  ∀ id,
    (vars.definition? id).bind Definition.labels?
      = (query.vars.definition? id).bind Definition.labels?

/-- The labels at an end of a relationship are those of the node it stands for. -/
theorem endpointLabels_eq (vars : VarTable) (endpoint : VarId)
    : endpointLabels vars endpoint
      = ((vars.definition? (vars.resolve endpoint)).bind Definition.labels?).getD ∅ := by
  unfold endpointLabels VarTable.node?
  cases vars.definition? (vars.resolve endpoint) with
  | none => rfl
  | some definition => cases definition <;> rfl

/-- The labels at the ends of relationships are those that were collected. -/
theorem QueryModel.SameLabels.endpointLabels {query : QueryModel} {catalog : Catalog} {typed : Bool}
    {vars : VarTable} (sameLabels : query.SameLabels vars)
    (refined : query.Refined catalog typed vars) (endpoint : VarId)
    : endpointLabels vars endpoint = Plan.endpointLabels query.vars endpoint := by
  rw [endpointLabels_eq, endpointLabels_eq, refined.resolve, sameLabels]

/-- A definition with the same labels may take the place of another. -/
theorem QueryModel.SameLabels.redefine {query : QueryModel} {vars : VarTable} {id : VarId}
    {var : Variable} {definition : Definition} (sameLabels : query.SameLabels vars)
    (found : vars.get? id = some var) (labels : definition.labels? = var.definition.labels?)
    : query.SameLabels (vars.redefine id definition) := by
  intro other
  rw [← sameLabels other, VarTable.definition?, VarTable.get?_redefine]
  split
  · rename_i same
    subst same
    simp [VarTable.definition?, found, labels]
  · rfl

end CypherSql.Plan
