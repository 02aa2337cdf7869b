import CypherSql.Proofs.Settled
import CypherSql.Sql.Scope

/-! What writing an expression asks for. Variables have to be supplied by the sources of their
scope, or to stand for definitions that can be written there; some features SQL never has. Writing
fails for the first demand that is not met, and for nothing else.
-/

namespace CypherSql.Sql

open Plan (VarId VarTable)

/-- What writing a tree asks for: that a source of a scope supplies a variable, that an exported
variable is defined as a node or relationship, or that SQL has a feature.
-/
inductive Demand where
  | supplier (kind : ReadKind) (id : VarId) (scope : Nat) (select : Plan.Select)
  | entity (id : VarId) (definition : Option Plan.Definition)
  | feature (asked : Feature)

namespace Demand

/-- The demand is met. SQL has none of the features that are asked for. -/
def met : Demand → Bool
  | .supplier _ id _ select => (select.supplier? id).isSome
  | .entity _ definition => definition.any (·.isElement)
  | .feature _ => false

/-- What writing fails for if the demand is not met. -/
def error : Demand → RenderError
  | .supplier kind id scope _ => .missingSupplier kind id scope
  | .entity id _ => .invalidTree (.entityOfOther id)
  | .feature asked => .unsupported asked

end Demand

/-- The first demand that is not met. -/
def firstUnmet (demands : List Demand) : Option Demand :=
  demands.find? (!·.met)

@[simp]
theorem firstUnmet_nil : firstUnmet [] = none :=
  rfl

theorem firstUnmet_append {first second : List Demand}
    : firstUnmet (first ++ second) = (firstUnmet first).or (firstUnmet second) :=
  List.find?_append

/-- A computation answers demands: it succeeds if all are met, and else fails for the first one that
is not.
-/
def Answers {α : Type} (demands : List Demand) : Except RenderError α → Prop
  | .ok _ => firstUnmet demands = none
  | .error error => (firstUnmet demands).map Demand.error = some error

namespace Answers

variable {α β : Type} {demands more : List Demand} {result : Except RenderError α}

theorem ok (value : α) : Answers [] (.ok value) :=
  firstUnmet_nil

/-- A single demand is answered by success or by its own error. -/
theorem single {demand : Demand} (met : demand.met = true → ∃ value, result = .ok value)
    (unmet : demand.met = false → result = .error demand.error)
    : Answers [demand] result := by
  cases isMet : demand.met with
  | true =>
      obtain ⟨value, succeeded⟩ := met isMet
      rw [succeeded]
      simp [Answers, firstUnmet, isMet]
  | false =>
      rw [unmet isMet]
      simp [Answers, firstUnmet, isMet]

theorem feature (asked : Feature) : Answers [.feature asked] (unsupported asked : Except _ α) :=
  rfl

/-- The demands of one computation after another come after its own. -/
theorem bind (first : Answers demands result) {next : α → Except RenderError β}
    (second : ∀ value, result = .ok value → Answers more (next value))
    : Answers (demands ++ more) (result >>= next) := by
  cases result with
  | ok value =>
      have allMet : firstUnmet demands = none := first
      have later := second value rfl
      change Answers (demands ++ more) (next value)
      unfold Answers at later ⊢
      rwa [firstUnmet_append, allMet, Option.none_or]
  | error error =>
      obtain ⟨demand, isFirst, same⟩ := Option.map_eq_some_iff.mp first
      change (firstUnmet (demands ++ more)).map Demand.error = some error
      rw [firstUnmet_append, isFirst, Option.some_or, Option.map_some, same]

/-- What is returned after a computation adds no demand. -/
theorem map (first : Answers demands result) (f : α → β)
    : Answers demands (result >>= fun value => pure (f value)) := by
  cases result with
  | ok value => exact first
  | error error => exact first

theorem exceptMap (first : Answers demands result) (f : α → β)
    : Answers demands (result.map f) := by
  cases result with
  | ok value => exact first
  | error error => exact first

/-- The demands of computations over a list come in its order, by induction over it. -/
theorem mapM {f : α → Except RenderError β} {demandsOf : α → List Demand} {items : List α}
    (each : ∀ item ∈ items, Answers (demandsOf item) (f item))
    : Answers (items.flatMap demandsOf) (items.mapM f) := by
  induction items with
  | nil => exact ok []
  | cons item rest ih =>
      rw [List.mapM_cons, List.flatMap_cons]
      apply (each item (by simp)).bind
      intro value _
      exact (ih fun item member => each item (by simp [member])).map _

/-- The demands of a computation over a value that may be there. -/
theorem optionMapM {f : α → Except RenderError β} {demandsOf : α → List Demand}
    (each : ∀ value, Answers (demandsOf value) (f value)) (value : Option α)
    : Answers (value.toList.flatMap demandsOf) (value.mapM f) := by
  cases value with
  | none => exact ok none
  | some value =>
      rw [Option.mapM_some, map_eq_pure_bind]
      simpa using (each value).map some

end Answers

mutual

/-- The demands of an expression, given those of its variables and of their properties. Nothing
inside a map or an unknown function is read.
-/
def exprDemands (value property : VarId → List Demand) : Plan.Expr → List Demand
  | .literal _ => []
  | .star => []
  | .parameter _ => []
  | .var id => value id
  | .column _ _ => []
  | .property (.var id) _ => property id
  | .property base _ => [.feature (.propertyOf base)]
  | .unary _ operand => exprDemands value property operand
  | .binary _ left right => exprDemands value property left ++ exprDemands value property right
  | .list items => exprsDemands value property items
  | .map entries => [.feature (.mapValue (.map entries))]
  | .aggregate _ _ args => exprsDemands value property args
  | .call name args =>
      match ScalarFunction.ofName? name with
      | none => [.feature (.function name)]
      | some _ => exprsDemands value property args

/-- The same for several expressions. -/
def exprsDemands (value property : VarId → List Demand) : List Plan.Expr → List Demand
  | [] => []
  | e :: es => exprDemands value property e ++ exprsDemands value property es

end

section

variable {value : VarId → Except RenderError Expr}
  {property : VarId → String → Except RenderError Expr}
  {valueDemands propertyDemands : VarId → List Demand}

mutual

/-- Writing an expression answers its demands, by induction over it. -/
theorem exprWith_answers (values : ∀ id, Answers (valueDemands id) (value id))
    (properties : ∀ id key, Answers (propertyDemands id) (property id key))
    : ∀ expr, Answers (exprDemands valueDemands propertyDemands expr) (exprWith value property expr)
  | .literal _ => .ok _
  | .star => .ok _
  | .parameter _ => .ok _
  | .var id => values id
  | .column _ _ => .ok _
  | .property base key => by
      cases base with
      | var id => exact properties id key
      | _ => exact .feature _
  | .unary op operand => (exprWith_answers values properties operand).map _
  | .binary op left right => by
      apply (exprWith_answers values properties left).bind
      intro first _
      exact (exprWith_answers values properties right).map _
  | .list items => (exprsWith_answers values properties items).map _
  | .map entries => .feature _
  | .aggregate function distinct args => (exprsWith_answers values properties args).map _
  | .call name args => by
      unfold exprDemands exprWith
      cases ScalarFunction.ofName? name with
      | none => exact .feature _
      | some function => exact (exprsWith_answers values properties args).map _

/-- The same for several expressions. -/
theorem exprsWith_answers (values : ∀ id, Answers (valueDemands id) (value id))
    (properties : ∀ id key, Answers (propertyDemands id) (property id key))
    : ∀ exprs,
        Answers (exprsDemands valueDemands propertyDemands exprs) (exprsWith value property exprs)
  | [] => .ok _
  | expr :: rest => by
      apply (exprWith_answers values properties expr).bind
      intro first _
      exact (exprsWith_answers values properties rest).map _

end

end

namespace Context

variable {context : Context}

/-- The demand that a source of the scope supplies a variable. -/
def supplierDemand (context : Context) (kind : ReadKind) (id : VarId) : Demand :=
  .supplier kind id context.scope context.select

/-- The demands of the value of a variable: those of its definition where no source supplies it,
with definitions put in for names a number of times at most.
-/
def valueDemandsWithin (context : Context) : Nat → VarId → List Demand
  | n, id =>
      match context.vars.definition? id, context.select.supplier? id, n with
      | some (.path _ _), _, _ => [.feature (.pathValue id)]
      | some (.projected expr _), none, n + 1 =>
          exprDemands (context.valueDemandsWithin n)
            (fun id => [context.supplierDemand .property id])
            expr
      | _, _, _ => [context.supplierDemand .value id]

/-- The demands of the value of a variable. -/
def valueDemands (context : Context) (id : VarId) : List Demand :=
  context.valueDemandsWithin context.vars.size id

/-- The demands of an expression of the scope. -/
def demands (context : Context) (expr : Plan.Expr) : List Demand :=
  exprDemands context.valueDemands (fun id => [context.supplierDemand .property id]) expr

/-- Every source of the scope can be read: a subquery has a name, and the variable of a table has
its columns.
-/
structure Sound (context : Context) : Prop where
  named
    : ∀ item ∈ context.select.items,
        ∀ source,
          item.source = some source
          → ∃ name, context.subqueries[source]?.bind (·.name) = some name
  bound
    : ∀ item ∈ context.select.items,
        item.source = none → ∀ id ∈ item.ids, ∃ columns, tableColumns context.vars id = .ok columns

theorem Sound.reads (sound : context.Sound) {id : VarId} {item : Plan.FromItem}
    (supplied : context.select.supplier? id = some item)
    : (∃ name, context.subqueryName item = .ok (some name))
      ∨ context.subqueryName item = .ok none
        ∧ ∃ columns, tableColumns context.vars id = .ok columns := by
  have member := List.mem_of_find?_eq_some supplied
  have supplies : id ∈ item.ids := by simpa [Plan.FromItem.supplies] using List.find?_some supplied
  unfold subqueryName
  cases isSource : item.source with
  | none => exact .inr ⟨rfl, sound.bound item member isSource id supplies⟩
  | some source =>
      obtain ⟨name, named⟩ := sound.named item member source isSource
      exact .inl ⟨name, by simp [named]⟩

/-- Reading a variable from a source asks for the source alone. -/
theorem Sound.suppliedValue_answers (sound : context.Sound) (id : VarId)
    : Answers [context.supplierDemand .value id] (context.suppliedValue id) := by
  apply Answers.single
  · intro met
    obtain ⟨item, supplied⟩ := Option.isSome_iff_exists.mp met
    unfold suppliedValue supplier
    rcases sound.reads supplied with ⟨name, named⟩ | ⟨unnamed, columns, found⟩
    · exact ⟨.column name id, by simp [supplied, named, bind, Except.bind, pure, Except.pure]⟩
    · exact ⟨.column id columns.1,
        by simp [supplied, unnamed, found, bind, Except.bind, pure, Except.pure]⟩
  · intro unmet
    have missing : context.select.supplier? id = none := by
      simpa [supplierDemand, Demand.met] using unmet
    simp [suppliedValue, supplier, missing, supplierDemand, Demand.error, bind, Except.bind]

/-- Reading a property asks for the source of its variable. -/
theorem Sound.property_answers (sound : context.Sound) (id : VarId) (key : String)
    : Answers [context.supplierDemand .property id] (context.property id key) := by
  apply Answers.single
  · intro met
    obtain ⟨item, supplied⟩ := Option.isSome_iff_exists.mp met
    unfold property supplier
    rcases sound.reads supplied with ⟨name, named⟩ | ⟨unnamed, columns, found⟩
    · exact ⟨.column name (propertyColumn id key),
        by simp [supplied, named, bind, Except.bind, pure, Except.pure]⟩
    · exact ⟨.column id (columnFor columns.2 key),
        by simp [supplied, unnamed, found, bind, Except.bind, pure, Except.pure]⟩
  · intro unmet
    have missing : context.select.supplier? id = none := by
      simpa [supplierDemand, Demand.met] using unmet
    simp [property, supplier, missing, supplierDemand, Demand.error, bind, Except.bind]

/-- Reading a variable answers its demands, by induction over how often names are followed. -/
theorem Sound.valueWithin_answers (sound : context.Sound) (times : Nat) (id : VarId)
    : Answers (context.valueDemandsWithin times id) (context.valueWithin times id) := by
  induction times generalizing id with
  | zero =>
      unfold valueDemandsWithin valueWithin
      cases context.vars.definition? id with
      | none => exact sound.suppliedValue_answers id
      | some definition =>
          cases definition with
          | path => exact .feature _
          | projected expr =>
              cases context.select.supplier? id <;> exact sound.suppliedValue_answers id
          | _ => exact sound.suppliedValue_answers id
  | succ times ih =>
      unfold valueDemandsWithin valueWithin
      cases context.vars.definition? id with
      | none => exact sound.suppliedValue_answers id
      | some definition =>
          cases definition with
          | path => exact .feature _
          | projected expr =>
              cases context.select.supplier? id with
              | none => exact (exprWith_answers ih sound.property_answers expr).map _
              | some item => exact sound.suppliedValue_answers id
          | _ => exact sound.suppliedValue_answers id

/-- Writing an expression of the scope answers its demands. -/
theorem Sound.expr_answers (sound : context.Sound) (expr : Plan.Expr)
    : Answers (context.demands expr) (context.expr expr) :=
  exprWith_answers (sound.valueWithin_answers context.vars.size) sound.property_answers expr

end Context

end CypherSql.Sql
