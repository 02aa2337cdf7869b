import CypherSql.Plan.Simplify
import CypherSql.Proofs.Arrangement.Placement
import CypherSql.Proofs.Traversal

/-! Rewriting every expression of a draft leaves everything else as it is: the items that name
variables, the sources without pending conditions, and the variables but for what they project.
-/

namespace CypherSql.Plan

/-- The items are the same but for an expression without a name. -/
inductive Item.Alike : Item → Item → Prop where
  | named (id : VarId) : Alike (.named id) (.named id)
  | unnamed (old new : Expr) (column : VarId) : Alike (.unnamed old column) (.unnamed new column)

/-- The items are the same, unless there are pending conditions. -/
def FromItem.Alike (old new : FromItem) : Prop :=
  old.pending = [] → new = old

/-- The scopes are the same but for their expressions. -/
structure Scope.Alike (old new : Scope) : Prop where
  index : new.index = old.index
  items : List.Forall₂ Item.Alike old.items new.items
  fromItems : List.Forall₂ FromItem.Alike old.select.fromItems new.select.fromItems
  joins
    : List.Forall₂ (fun old new : Join => FromItem.Alike old.item new.item) old.select.joins
        new.select.joins

section Rewriting

variable {m : Type → Type} [Monad m] (modality : Modality m)

theorem Item.mapExprsM_alike {f : Expr → m Expr}
    (each : ∀ expr, modality.Holds (fun _ => True) (f expr)) (item : Item)
    : modality.Holds (Item.Alike item) (item.mapExprsM f) := by
  cases item with
  | named id => exact modality.pure (.named id)
  | unnamed expr column =>
      exact modality.bind (each expr) fun changed _ => modality.pure (.unnamed expr changed column)

variable [LawfulMonad m]

theorem FromItem.mapExprsM_alike {f : Expr → m Expr}
    (each : ∀ expr, modality.Holds (fun _ => True) (f expr)) (item : FromItem)
    : modality.Holds (FromItem.Alike item) (item.mapExprsM f) := by
  refine modality.bind (modality.mapM fun expr _ => each expr) fun pending all => ?_
  refine modality.pure fun none => ?_
  rw [none, List.forall₂_nil_left_iff] at all
  rw [all, ← none]

theorem Join.mapExprsM_alike {f : Expr → m Expr}
    (each : ∀ expr, modality.Holds (fun _ => True) (f expr)) (join : Join)
    : modality.Holds (fun later => FromItem.Alike join.item later.item) (join.mapExprsM f) :=
  modality.bind (each join.condition) fun _ _ =>
    modality.bind (FromItem.mapExprsM_alike modality each join.item) fun _ alike =>
      modality.pure alike

/-- Rewriting the expressions of a scope keeps its items and sources. -/
theorem Scope.mapExprsM_alike {f : Site → Expr → m Expr}
    (each : ∀ site expr, modality.Holds (fun _ => True) (f site expr)) (scope : Scope)
    : modality.Holds (Scope.Alike scope) (scope.mapExprsM f) := by
  unfold Scope.mapExprsM
  refine modality.bind (modality.mapM fun item _ =>
    Item.mapExprsM_alike modality (each _) item) fun items alike => ?_
  refine modality.bind (modality.mapM fun key _ => show modality.Holds (fun _ => True) _ from
    modality.bind (each _ key.expr) fun _ _ => modality.pure trivial) fun orderBy _ => ?_
  refine modality.bind (modality.optionMapM scope.skip fun expr _ => each _ expr) fun skip _ => ?_
  refine modality.bind (modality.optionMapM scope.limit fun expr _ => each _ expr) fun limit _ => ?_
  refine modality.bind (modality.mapM fun expr _ => each _ expr) fun conditions _ => ?_
  refine modality.bind (modality.mapM fun clause _ => show modality.Holds (fun _ => True) _ from
    modality.bind (modality.optionMapM clause.condition fun expr _ => each _ expr) fun _ _ =>
      modality.pure trivial) fun clauses _ => ?_
  refine modality.bind (modality.mapM fun item _ =>
    FromItem.mapExprsM_alike modality (each _) item) fun fromItems alikeItems => ?_
  refine modality.bind (modality.mapM fun join _ =>
    Join.mapExprsM_alike modality (each _) join) fun joins alikeJoins => ?_
  exact modality.pure ⟨rfl, alike, alikeItems, alikeJoins⟩

/-- The expressions of a rewritten scope have what rewriting gives to those of the scope. -/
theorem Scope.mapExprsM_expressions {holds : Expr → Prop} {f : Site → Expr → m Expr} {scope : Scope}
    (each : ∀ site, ∀ expr ∈ scope.expressions, modality.Holds holds (f site expr))
    : modality.Holds (fun later => ∀ expr ∈ later.expressions, holds expr) (scope.mapExprsM f) := by
  simp only [Scope.expressions, List.forall_mem_append, forall_and] at each
  obtain ⟨⟨⟨⟨⟨⟨⟨ofItems, ofKeys⟩, ofSkip⟩, ofLimit⟩, ofConditions⟩, ofClauses⟩, ofPending⟩,
    ofJoins⟩ := each
  have rewritten (site : Site) {item : Item} (listed : item ∈ scope.items)
      : modality.Holds (fun later => ∀ expr column, later = .unnamed expr column → holds expr)
          (item.mapExprsM (f site)) := by
    cases item with
    | named id => exact modality.pure nofun
    | unnamed expr column =>
        have own := ofItems site expr (List.mem_filterMap.mpr ⟨_, listed, rfl⟩)
        refine modality.bind own fun changed has => modality.pure ?_
        rintro _ _ ⟨⟩
        exact has
  have waits (site : Site) {item : FromItem} (listed : item ∈ scope.select.items)
      : modality.Holds (fun later => ∀ expr ∈ later.pending, holds expr)
        (item.mapExprsM (f site)) :=
    modality.bind (modality.mapM_all fun expr waits =>
        ofPending site expr (List.mem_flatMap.mpr ⟨item, listed, waits⟩))
      fun _ all => modality.pure all
  unfold Scope.mapExprsM
  refine modality.bind (modality.mapM_all fun item => rewritten _) fun items ofItems => ?_
  refine modality.bind (modality.mapM_all fun key listed =>
    show modality.Holds (fun later : SortKey => holds later.expr) _ from
      modality.bind (ofKeys _ key.expr (List.mem_map_of_mem listed)) fun _ has =>
        modality.pure has) fun orderBy ofKeys => ?_
  refine modality.bind (modality.optionMapM scope.skip fun expr given =>
    ofSkip _ expr (Option.mem_toList.mpr given)) fun skip ofSkip => ?_
  refine modality.bind (modality.optionMapM scope.limit fun expr given =>
    ofLimit _ expr (Option.mem_toList.mpr given)) fun limit ofLimit => ?_
  refine modality.bind (modality.mapM_all fun expr => ofConditions _ expr)
    fun conditions ofConditions => ?_
  refine modality.bind (modality.mapM_all fun clause listed =>
    show modality.Holds
      (fun later : ReadingClause => ∀ expr, later.condition = some expr → holds expr) _ from
      modality.bind (modality.optionMapM clause.condition fun expr given =>
          ofClauses _ expr (List.mem_filterMap.mpr ⟨clause, listed, given⟩))
        fun _ all => modality.pure all) fun clauses ofClauses => ?_
  refine modality.bind (modality.mapM_all fun item listed =>
    waits _ (List.mem_append_left _ listed)) fun fromItems ofFromItems => ?_
  refine modality.bind (modality.mapM_all fun join listed =>
    show modality.Holds
      (fun later : Join => holds later.condition ∧ ∀ expr ∈ later.item.pending, holds expr) _ from
      modality.bind (ofJoins _ join.condition (List.mem_map_of_mem listed)) fun _ has =>
      modality.bind (waits _ (List.mem_append_right _ (List.mem_map_of_mem listed))) fun _ all =>
        modality.pure ⟨has, all⟩) fun joins ofJoins => modality.pure ?_
  simp only [Scope.expressions, Select.items, List.forall_mem_append, List.flatMap_append,
    List.forall_mem_flatMap, List.forall_mem_map, Option.mem_toList, List.mem_filterMap]
  refine ⟨⟨⟨⟨⟨⟨⟨?_, ofKeys⟩, ofSkip⟩, ofLimit⟩, ofConditions⟩, ?_⟩, ofFromItems, ?_⟩, ?_⟩
  · rintro expr ⟨item, listed, same⟩
    cases item with
    | named id => cases same
    | unnamed other column => exact Option.some.inj same ▸ ofItems _ listed other column rfl
  · rintro expr ⟨clause, listed, given⟩
    exact ofClauses clause listed expr given
  · exact fun join listed => (ofJoins join listed).2
  · exact fun join listed => (ofJoins join listed).1

end Rewriting

/-- The definition without its expression and the properties that are read. -/
def Definition.stamp : Definition → Definition
  | .node pattern => .node { pattern with required := ∅ }
  | .relationship rel => .relationship { rel with required := ∅ }
  | .projected _ type => .projected .star type
  | other => other

/-- The variable without its expression and the properties that are read. -/
def Variable.stamp (var : Variable) : Variable :=
  { var with definition := var.definition.stamp }

/-- The variable is a node or a relationship, or another name of one. -/
inductive VarTable.NamesElement (vars : VarTable) : VarId → Prop where
  | element {id definition} (found : vars.definition? id = some definition)
    (isElement : definition.isElement)
    : NamesElement vars id
  | renamed {id target type} (found : vars.definition? id = some (.projected (.var target) type))
    (named : vars.NamesElement target)
    : NamesElement vars id

/-- The variables are the same but for what they project. -/
def VarTable.SameStamps (vars later : VarTable) : Prop :=
  ∀ id, (later.get? id).map Variable.stamp = (vars.get? id).map Variable.stamp

/-- The variables are the same but for what they project, and all names of nodes and relationships
stay names of them.
-/
structure VarTable.Rewrites (vars later : VarTable) : Prop where
  stamps : vars.SameStamps later
  names : ∀ id, vars.NamesElement id → later.NamesElement id

theorem VarTable.SameStamps.threads : Threads VarTable.SameStamps where
  refl := fun _ _ => rfl
  trans := fun _ _ _ first second id => (second id).trans (first id)

theorem VarTable.Rewrites.threads : Threads VarTable.Rewrites where
  refl := fun _ => ⟨fun _ => rfl, fun _ names => names⟩
  trans := fun _ _ _ first second =>
    ⟨SameStamps.threads.trans _ _ _ first.stamps second.stamps,
      fun id names => second.names id (first.names id names)⟩

namespace VarTable

variable {vars : VarTable} {id : VarId} {var : Variable} {definition : Definition}

/-- Dependencies may be read off again. -/
theorem rewrites_refresh (vars : VarTable) (id : VarId) : vars.Rewrites (vars.refresh id) := by
  have same (other : VarId) : (vars.refresh id).definition? other = vars.definition? other := by
    rw [definition?, definition?, get?_refresh]
  refine ⟨fun other => by rw [get?_refresh], fun other names => ?_⟩
  induction names with
  | element found isElement => exact .element ((same _).trans found) isElement
  | renamed found _ ih => exact .renamed ((same _).trans found) ih

theorem get?_redefine_of_get? (found : vars.get? id = some var) (other : VarId)
    : (vars.redefine id definition).get? other
      = if other = id then some { var with definition } else vars.get? other := by
  rw [get?_redefine, found]
  rfl

/-- A definition may be replaced by one with its stamp. -/
theorem sameStamps_redefine (found : vars.get? id = some var)
    (stamp : definition.stamp = var.definition.stamp)
    : vars.SameStamps (vars.redefine id definition) := by
  intro other
  rw [get?_redefine_of_get? found]
  split
  · rename_i same
    simp [same, found, Variable.stamp, stamp]
  · rfl

/-- A definition that is no other name of a node or relationship may be replaced by one with its
stamp.
-/
theorem rewrites_redefine (found : vars.get? id = some var)
    (stamp : definition.stamp = var.definition.stamp)
    (noName : ∀ target type,
      var.definition = .projected (.var target) type → ¬ vars.NamesElement target)
    : vars.Rewrites (vars.redefine id definition) := by
  refine ⟨sameStamps_redefine found stamp, fun other names => ?_⟩
  induction names with
  | @element other old at' isElement =>
      by_cases same : other = id
      · subst same
        rw [definition?_of_get? found] at at'
        obtain rfl := Option.some.inj at'
        have new : (vars.redefine other definition).definition? other = some definition := by
          rw [definition?, get?_redefine_of_get? found, if_pos rfl]
          rfl
        refine .element new ?_
        cases old : var.definition <;> cases new : definition <;>
            simp_all [Definition.stamp, Definition.isElement]
      · have kept : (vars.redefine id definition).definition? other = some old := by
          rwa [definition?, get?_redefine_of_get? found, if_neg same]
        exact .element kept isElement
  | @renamed other target type at' names ih =>
      by_cases same : other = id
      · subst same
        rw [definition?_of_get? found] at at'
        exact absurd names (noName target type (Option.some.inj at'))
      · have kept : (vars.redefine id definition).definition? other
            = some (.projected (.var target) type) := by
          rwa [definition?, get?_redefine_of_get? found, if_neg same]
        exact .renamed kept ih

end VarTable

section Rewriting

variable {m : Type → Type} [Monad m] (modality : Modality m) {f : VarTable → Site → Expr → m Expr}
  {keeps : VarTable → VarTable → Prop}

/-- Replacing what a variable projects keeps something, whatever comes of its expression. -/
def RewritesKeep (f : VarTable → Site → Expr → m Expr) (keeps : VarTable → VarTable → Prop)
    : Prop :=
  ∀ vars site expr,
    modality.Holds
      (fun changed => ∀ id var type,
        vars.get? id = some var
        → var.definition = .projected expr type
        → changed ≠ expr
        → keeps vars (vars.redefine id (.projected changed type)))
      (f vars site expr)

/-- Whatever comes of expressions, the variables stay the same but for them. -/
theorem rewritesKeep_sameStamps [LawfulMonad m]
    (each : ∀ vars site expr, modality.Holds (fun _ => True) (f vars site expr))
    : RewritesKeep modality f VarTable.SameStamps := by
  intro vars site expr
  refine modality.mono (each vars site expr) ?_
  rintro changed - id var type found definition -
  exact VarTable.sameStamps_redefine found (by rw [definition]; rfl)

/-- Names of nodes and relationships stay such names if they are rewritten to themselves. -/
theorem rewritesKeep_rewrites [LawfulMonad m]
    (each
      : ∀ vars site expr,
          modality.Holds
            (fun changed => ∀ target,
              expr = .var target → vars.NamesElement target → changed = .var target)
            (f vars site expr))
    : RewritesKeep modality f VarTable.Rewrites := by
  intro vars site expr
  refine modality.mono (each vars site expr)
    fun changed kept id var type found definition different => ?_
  refine VarTable.rewrites_redefine found (by rw [definition]; rfl)
    fun target other named names => ?_
  obtain ⟨rfl, -⟩ : expr = .var target ∧ type = other := by
    simpa [definition] using named
  exact different (kept target rfl names)

/-- Replacing what variables project keeps what it keeps for each, by induction over the
variables.
-/
theorem mapProjectionsM_keeps (threads : Threads keeps) (each : RewritesKeep modality f keeps)
    (refresh : ∀ vars id, keeps vars (VarTable.refresh vars id)) (ids : List VarId)
    {start vars : VarTable} (kept : keeps start vars)
    : modality.Holds (keeps start) (mapProjectionsM f ids vars) := by
  induction ids generalizing vars with
  | nil => exact modality.pure kept
  | cons id rest ih =>
      unfold mapProjectionsM
      split
      · rename_i name other scope expr type found
        refine modality.bind (each vars ⟨scope, false⟩ expr) fun changed redefined => ?_
        split
        · exact ih kept
        · rename_i different
          refine ih (threads.trans _ _ _ kept (threads.trans _ _ _ ?_ (refresh _ id)))
          exact redefined id _ type found rfl different
      · exact ih kept

/-- Rewriting all expressions of a draft keeps everything else. -/
theorem Draft.mapExprsM_keeps [LawfulMonad m] (threads : Threads keeps)
    (each : RewritesKeep modality f keeps)
    (refresh : ∀ vars id, keeps vars (VarTable.refresh vars id)) (draft : Draft)
    : modality.Holds
        (fun later => draft.tree.Maps Scope.Alike later.tree ∧ keeps draft.vars later.vars)
        (draft.mapExprsM f) := by
  unfold Draft.mapExprsM
  refine modality.bind (Tree.mapScopesM_holds modality fun scope _ =>
    Scope.mapExprsM_alike modality (fun site expr => ?_) scope) fun tree maps => ?_
  · exact modality.mono (each draft.vars site expr) fun _ _ => trivial
  · refine modality.bind
      (mapProjectionsM_keeps modality threads each refresh _ (threads.refl _)) fun vars kept => ?_
    exact modality.pure ⟨maps, kept⟩

end Rewriting

namespace Expr.Inherited

variable {m : Type → Type} [Monad m] {holds : Expr → Prop}

mutual

/-- Rewriting an expression part by part keeps an inherited property if every change of a part does,
by induction over the expression.
-/
theorem mapPartsM (inherited : Inherited holds) (modality : Modality m) {f : Expr → m Expr}
    (each : ∀ part, holds part → modality.Holds holds (f part))
    : ∀ expr : Expr, holds expr → modality.Holds holds (expr.mapPartsM f)
  | .property base _, has =>
      modality.bind (inherited.mapPartsM modality each base (inherited.property.mp has))
        fun _ has => each _ (inherited.property.mpr has)
  | .unary _ operand, has =>
      modality.bind (inherited.mapPartsM modality each operand (inherited.unary.mp has))
        fun _ has => each _ (inherited.unary.mpr has)
  | .binary _ left right, has =>
      modality.bind (inherited.mapPartsM modality each left (inherited.binary.mp has).1)
        fun _ hasLeft =>
          modality.bind (inherited.mapPartsM modality each right (inherited.binary.mp has).2)
            fun _ hasRight => each _ (inherited.binary.mpr ⟨hasLeft, hasRight⟩)
  | .list items, has =>
      modality.bind (inherited.mapAllPartsM modality each items (inherited.list.mp has))
        fun _ has => each _ (inherited.list.mpr has)
  | .map entries, has =>
      modality.bind (inherited.mapEntryPartsM modality each entries (inherited.map.mp has))
        fun _ has => each _ (inherited.map.mpr has)
  | .aggregate _ _ args, has =>
      modality.bind (inherited.mapAllPartsM modality each args (inherited.aggregate.mp has))
        fun _ has => each _ (inherited.aggregate.mpr has)
  | .call _ args, has =>
      modality.bind (inherited.mapAllPartsM modality each args (inherited.call.mp has))
        fun _ has => each _ (inherited.call.mpr has)
  | .literal _, has => each _ has
  | .star, has => each _ has
  | .parameter _, has => each _ has
  | .var _, has => each _ has
  | .column _ _, has => each _ has

/-- The same for several expressions. -/
theorem mapAllPartsM (inherited : Inherited holds) (modality : Modality m) {f : Expr → m Expr}
    (each : ∀ part, holds part → modality.Holds holds (f part))
    : ∀ exprs : List Expr,
        (∀ expr ∈ exprs, holds expr)
        → modality.Holds (fun later => ∀ expr ∈ later, holds expr) (mapAllPartsM f exprs)
  | [], _ => modality.pure (by simp)
  | expr :: rest, has =>
      modality.bind (inherited.mapPartsM modality each expr (has expr (by simp))) fun _ first =>
        modality.bind (inherited.mapAllPartsM modality each rest fun expr listed =>
            has expr (by simp [listed])) fun _ others =>
          modality.pure (List.forall_mem_cons.mpr ⟨first, others⟩)

/-- The same for the values of several entries. -/
theorem mapEntryPartsM (inherited : Inherited holds) (modality : Modality m) {f : Expr → m Expr}
    (each : ∀ part, holds part → modality.Holds holds (f part))
    : ∀ entries : List (String × Expr),
        (∀ entry ∈ entries, holds entry.2)
        → modality.Holds (fun later => ∀ entry ∈ later, holds entry.2) (mapEntryPartsM f entries)
  | [], _ => modality.pure (by simp)
  | (key, expr) :: rest, has =>
      modality.bind (inherited.mapPartsM modality each expr (has (key, expr) (by simp)))
        fun _ first =>
          modality.bind (inherited.mapEntryPartsM modality each rest fun entry listed =>
              has entry (by simp [listed])) fun _ others =>
            modality.pure (List.forall_mem_cons.mpr ⟨first, others⟩)

end

end Expr.Inherited

/-- What holds of each change of a part holds of the change of all parts. -/
theorem Expr.mapPartsM_holds {m : Type → Type} [Monad m] (modality : Modality m) {f : Expr → m Expr}
    (each : ∀ part, modality.Holds (fun _ => True) (f part)) (expr : Expr)
    : modality.Holds (fun _ => True) (expr.mapPartsM f) :=
  have inherited : Inherited fun _ => True := by constructor <;> simp
  inherited.mapPartsM modality (fun part _ => each part) expr trivial

end CypherSql.Plan
