import CypherSql.Plan.Scopes
import CypherSql.Proofs.Refinement
import CypherSql.Proofs.Traversal

/-! The first steps of lowering. Every projected variable gets its type: names lead to a variable
with a type, all other expressions are scalars, and the ends of relationships are nodes. The tree
has a scope for each model of the query, and each of its subqueries gets a name.
-/

namespace CypherSql.Plan

/-- A variable has a type as soon as names are followed more often than its place in the order, by
induction over the number of times.
-/
theorem typeWithin_ok {vars : VarTable} {order : List VarId} (ordered : vars.Ordered order)
    (start : VarId) {id : VarId} (member : id ∈ order) {times : Nat}
    (enough : order.idxOf id < times)
    : ∃ type, typeWithin vars start times id = .ok type := by
  induction times generalizing id with
  | zero => omega
  | succ times ih =>
      obtain ⟨var, found⟩ := Option.isSome_iff_exists.mp ((ordered.declared id).mp member)
      have definition := VarTable.definition?_of_get? found
      simp only [typeWithin, definition]
      cases kind : var.definition with
      | projected expr type =>
          cases type with
          | some type => simp
          | none =>
              cases expr with
              | var target =>
                  have next : vars.target? id = some target := by
                    simp [VarTable.target?, definition, kind, Definition.target?]
                  obtain ⟨earlier, before⟩ := ordered.target_earlier next
                  exact ih earlier (by omega)
              | _ => simp
      | _ => simp

/-- An expression that is no other name is a scalar. -/
theorem typeWithin_scalar {vars : VarTable} {start id : VarId} {times : Nat} {expr : Expr}
    {type : VarType} (found : vars.definition? id = some (.projected expr none))
    (noName : ∀ target, expr ≠ .var target)
    (result : typeWithin vars start (times + 1) id = .ok type)
    : type = .scalar := by
  simp only [typeWithin, found] at result
  cases expr with
  | var target => exact absurd rfl (noName target)
  | _ => simpa using result.symm

/-- What is known of types while some variables still wait for theirs. -/
def TypedUpTo (remaining : List VarId) (vars : VarTable) : Prop :=
  ∀ id expr type,
    vars.definition? id = some (.projected expr type)
    → (∀ target, expr ≠ .var target)
    → type = some .scalar ∨ type = none ∧ id ∈ remaining

/-- Types are inferred safely for all variables that wait, by induction over them. -/
theorem inferTypesOf_safely {query : QueryModel} {catalog : Catalog} {remaining : List VarId}
    {vars : VarTable} (refined : query.Refined catalog false vars)
    (labels : query.SameLabels vars) (typed : TypedUpTo remaining vars)
    : Safely (fun later => query.Refined catalog true later ∧ query.SameLabels later)
        (inferTypesOf remaining vars) := by
  induction remaining generalizing vars with
  | nil =>
      refine ⟨{ refined with agrees := ?_ }, labels⟩
      intro id var found
      have agrees := refined.agrees id var found
      have definition := VarTable.definition?_of_get? found
      cases kind : var.definition with
      | projected expr type =>
          intro _ noName
          have known := typed id expr type (kind ▸ definition) noName
          simpa using known
      | _ =>
          rw [kind] at agrees
          exact agrees
  | cons id rest ih =>
      unfold inferTypesOf
      split
      · rename_i expr found
        obtain ⟨order, ordered⟩ := refined.ordered
        obtain ⟨var, present, kind⟩ := VarTable.definition?_eq_some.mp found
        have member : id ∈ order := (ordered.declared id).mpr (by simp [present])
        have place : order.idxOf id < order.length := List.idxOf_lt_length_iff.mpr member
        have bound := ordered.length_le_size
        -- The fuel is as large as the table, and each variable refers to earlier ones only.
        have enough : order.idxOf id < vars.size + 1 := by omega
        obtain ⟨type, inferred⟩ := typeWithin_ok ordered id member enough
        rw [inferred]
        refine ih (refined.redefine present ?_ ?_ ?_) (labels.redefine present ?_) ?_
        · rw [kind]
          rfl
        · rw [kind]
          rfl
        · exact nofun
        · rw [kind]
          rfl
        · intro other expr' type' present' noName
          rw [VarTable.definition?, VarTable.get?_redefine] at present'
          split at present'
          · simp only [present, Option.map_some, Option.some.injEq, Definition.projected.injEq]
              at present'
            obtain ⟨rfl, rfl⟩ := present'
            exact .inl (congrArg some (typeWithin_scalar found noName inferred))
          · rename_i different
            have old := typed other expr' type' present' noName
            simpa [different] using old
      · rename_i other
        refine ih refined labels fun id' expr type present noName => ?_
        rcases typed id' expr type present noName with known | ⟨rfl, waits⟩
        · exact .inl known
        · rcases List.mem_cons.mp waits with rfl | later
          · exact absurd present (other expr)
          · exact .inr ⟨rfl, later⟩

/-- The ends of relationships are nodes, so that none of them is a bad one. -/
theorem badEndpoint?_eq_none {vars : VarTable} (linked : vars.Linked)
    : badEndpoint? vars = none := by
  rw [badEndpoint?, List.findSome?_eq_none_iff]
  intro var member
  obtain ⟨id, found⟩ := VarTable.mem_toList.mp member
  have links := linked found
  have isNode {endpoint : VarId} (stands : vars.StandsForNode endpoint)
      : isNode vars endpoint = true := by
    obtain ⟨node, present⟩ := stands
    simp [isNode, VarTable.node?_eq_some.mp present, Definition.type?]
  cases kind : var.definition with
  | relationship rel =>
      rw [kind] at links
      simp [isNode links.1, isNode links.2]
  | _ => rfl

/-- A draft with other variables that refine the model, and the labels that were collected. -/
theorem inferTypes_safely {query : QueryModel} (catalog : Catalog) {draft : Draft}
    (start : draft.vars = query.vars)
    : Safely (fun later =>
          (∃ vars, later = { draft with vars })
          ∧ query.Refined catalog true later.vars
          ∧ query.SameLabels later.vars)
        (inferTypes draft) := by
  have typed : TypedUpTo query.vars.ids query.vars := by
    intro id expr type found _
    obtain ⟨var, present, kind⟩ := VarTable.definition?_eq_some.mp found
    have unresolved := query.collected.unresolved id var present
    rw [kind] at unresolved
    exact .inr ⟨unresolved, VarTable.mem_ids.mpr (by simp [present])⟩
  unfold inferTypes
  rw [start]
  refine (inferTypesOf_safely (.refl query catalog) (fun _ => rfl) typed).bind ?_
  rintro vars ⟨refined, labels⟩
  rw [badEndpoint?_eq_none refined.linked]
  exact ⟨⟨vars, rfl⟩, refined, labels⟩

/-- Nothing is done yet with a subquery. -/
structure Subquery.Untouched (subquery : Subquery) : Prop where
  name : subquery.name = none
  exports : subquery.exports = []

/-- The models from a position on, each as the scope of its position. -/
def scopesFrom (index : Nat) (models : List ScopeModel) : List Scope :=
  (models.zipIdx index).map fun (model, index) => model.scope index

theorem KindsFit.cons {model next : ScopeModel} {rest : List ScopeModel}
    (kinds : KindsFit (model :: next :: rest))
    : model.kind = .withClause ∧ KindsFit (next :: rest) := by
  obtain ⟨front, last, same, returned, others⟩ := kinds
  cases front with
  | nil => simp at same
  | cons first front =>
      simp only [List.cons_append, List.cons.injEq] at same
      obtain ⟨rfl, same⟩ := same
      exact ⟨others model (by simp), front, last, same, returned,
        fun other member => others other (by simp [member])⟩

theorem KindsFit.singleton {model : ScopeModel} (kinds : KindsFit [model])
    : model.kind = .returnClause := by
  obtain ⟨front, last, same, returned, -⟩ := kinds
  cases front with
  | nil =>
      simp only [List.nil_append, List.cons.injEq, and_true] at same
      exact same ▸ returned
  | cons first front => simp at same

/-- The scopes of models are built safely where their kinds fit, by induction over the models. -/
theorem treeFrom_safely {count index : Nat} {models : List ScopeModel} (kinds : KindsFit models)
    : Safely (fun result =>
          (∃ root,
            result.2 = some root ∧ result.1.map (·.scope) ++ [root] = scopesFrom index models)
          ∧ ∀ subquery ∈ result.1, subquery.Untouched)
        (treeFrom count index models) := by
  induction models generalizing index with
  | nil =>
      obtain ⟨front, last, same, -⟩ := kinds
      simp at same
  | cons model rest ih =>
      cases rest with
      | nil =>
          simp only [treeFrom, kinds.singleton]
          exact ⟨⟨_, rfl, rfl⟩, by simp⟩
      | cons next rest =>
          obtain ⟨kind, others⟩ := kinds.cons
          simp only [treeFrom, kind]
          refine (@ih (index + 1) others).bind ?_
          rintro ⟨subqueries, root⟩ ⟨⟨root, rfl, scopes⟩, untouched⟩
          refine ⟨⟨root, rfl, ?_⟩, ?_⟩
          · simp only [List.map_cons, List.cons_append, scopes]
            simp [scopesFrom]
          · intro subquery member
            rcases List.mem_cons.mp member with rfl | rest
            · exact ⟨rfl, rfl⟩
            · exact untouched subquery rest

/-- A tree whose scopes are those of the models has each of them in its place. -/
theorem Tree.each_of_scopes {models : List ScopeModel} {tree : Tree}
    (scopes : tree.scopes = scopesFrom 0 models)
    : tree.Each models fun model scope => scope = model.scope scope.index := by
  refine ⟨?_, fun scope member => ?_⟩
  · rw [scopes, scopesFrom, List.map_map]
    have second : ((·.index) ∘ fun (entry : ScopeModel × Nat) => entry.1.scope entry.2)
        = Prod.snd := rfl
    rw [second, List.zipIdx_map_snd, List.range_eq_range']
  · rw [scopes] at member
    obtain ⟨⟨model, index⟩, listed, rfl⟩ := List.mem_map.mp member
    exact ⟨model, List.mem_zipIdx_iff_getElem?.mp listed, rfl⟩

/-- The scopes of a query are built safely. -/
theorem buildScopes_safely {query : QueryModel} {draft : Draft} (empty : draft.tree = .empty)
    (models : draft.models = query.models)
    : Safely (fun later =>
          later.vars = draft.vars
          ∧ later.tree.Each query.models (fun model scope => scope = model.scope scope.index)
          ∧ ∀ subquery ∈ later.tree.subqueries, subquery.Untouched)
        (buildScopes draft) := by
  unfold buildScopes
  rw [empty, models]
  refine (treeFrom_safely query.collected.kinds).bind ?_
  rintro ⟨subqueries, root⟩ ⟨⟨root, rfl, scopes⟩, untouched⟩
  exact ⟨rfl, Tree.each_of_scopes scopes, untouched⟩

/-- Subqueries without names get one each, by induction over them. -/
theorem nameAll_safely {naming : Naming} {subqueries : List Subquery}
    (unnamed : ∀ subquery ∈ subqueries, subquery.name = none)
    : Safely (fun result =>
          List.Forall₂
            (fun old new => new.scope = old.scope ∧ new.exports = old.exports ∧ new.name.isSome)
            subqueries result.1)
        (nameAll naming subqueries) := by
  induction subqueries generalizing naming with
  | nil => exact .nil
  | cons subquery rest ih =>
      simp only [nameAll, unnamed subquery (by simp)]
      refine (ih fun other member => unnamed other (by simp [member])).bind ?_
      rintro ⟨named, last⟩ all
      exact .cons ⟨rfl, rfl, rfl⟩ all

/-- A subquery has a name, and its exports are still to be found. -/
structure Subquery.Named (subquery : Subquery) : Prop where
  name : subquery.name.isSome
  exports : subquery.exports = []

/-- What lasts from step to step about the subqueries of a tree. -/
theorem Tree.Maps.named {related : Scope → Scope → Prop} {tree later : Tree}
    (maps : tree.Maps related later) (named : ∀ subquery ∈ tree.subqueries, subquery.Named)
    : ∀ subquery ∈ later.subqueries, subquery.Named := by
  intro subquery member
  obtain ⟨position, at'⟩ := List.mem_iff_getElem?.mp member
  obtain ⟨old, present, maps⟩ := maps.getElem? at'
  have before := named old (List.mem_of_getElem? present)
  exact ⟨maps.name ▸ before.name, maps.exports.trans before.exports⟩

/-- Subqueries are named safely, and their scopes stay. -/
theorem nameSubqueries_safely {draft : Draft}
    (untouched : ∀ subquery ∈ draft.tree.subqueries, subquery.Untouched)
    : Safely (fun later =>
          later.vars = draft.vars
          ∧ later.tree.scopes = draft.tree.scopes
          ∧ ∀ subquery ∈ later.tree.subqueries, subquery.Named)
        (nameSubqueries draft) := by
  unfold nameSubqueries
  refine (nameAll_safely fun subquery member => (untouched subquery member).name).bind ?_
  rintro ⟨subqueries, naming⟩ all
  simp only at all
  have unread : ∀ subquery ∈ draft.tree.subqueries, subquery.exports = [] :=
    fun subquery member => (untouched subquery member).exports
  refine ⟨rfl, ?_, ?_⟩
  · rw [Tree.scopes, Tree.scopes]
    congr 1
    generalize draft.tree.subqueries = before at all
    induction all with
    | nil => rfl
    | cons first _ ih => simp [first.1, ih]
  · generalize draft.tree.subqueries = before at all unread
    induction all with
    | nil => simp
    | cons first _ ih =>
        intro subquery member
        rcases List.mem_cons.mp member with rfl | rest
        · exact ⟨first.2.2, first.2.1.trans (unread _ (by simp))⟩
        · exact ih (fun subquery member => unread subquery (by simp [member])) subquery rest

end CypherSql.Plan
