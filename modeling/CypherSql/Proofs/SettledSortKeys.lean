import CypherSql.Proofs.Sorting.Keys

/-! Sort keys that are constants once a query is lowered. Keys that are written as constants are
left out; those that come to be constants later are not. These settle: they come to be constants
when functions are simplified and constants put in place of variables, told from the variables as
they were collected.
-/

namespace CypherSql.Plan

/-- In a scope the expression comes to be a map with the given entries: it is written as one, it is
a variable of an earlier scope that projects one, or it is looked up in such a map.
-/
inductive Expr.ComesToMap (vars : VarTable) (scope : Nat) : Expr → List (String × Expr) → Prop where
  | written (entries : List (String × Expr)) : ComesToMap vars scope (.map entries) entries
  | constant {id entries declaredIn} (found : vars.measured? id = some (.map entries, declaredIn))
    (earlier : declaredIn < scope)
    : ComesToMap vars scope (.var id) entries
  | entry {base entries key value inner} (comes : ComesToMap vars scope base entries)
    (found : entries.lookup key = some value) (isMap : ComesToMap vars scope value inner)
    : ComesToMap vars scope (.property base key) inner

/-- In a scope the expression comes to be a constant: a literal, a list or map of such expressions,
the length of a path, a variable of an earlier scope that projects a constant, or what is looked up
in a map.
-/
inductive Expr.Settles (vars : VarTable) (scope : Nat) : Expr → Prop where
  | literal (value : Literal) : Settles vars scope (.literal value)
  | list {items} (each : ∀ item ∈ items, Settles vars scope item) : Settles vars scope (.list items)
  | map {entries} (each : ∀ entry ∈ entries, Settles vars scope entry.2)
    : Settles vars scope (.map entries)
  | length {name args hops} (named : lowerName name = "length")
    (isPath : pathLength? vars args = some hops)
    : Settles vars scope (.call name args)
  | constant {id value declaredIn} (found : vars.measured? id = some (value, declaredIn))
    (earlier : declaredIn < scope)
    : Settles vars scope (.var id)
  | entry {base entries key value} (comes : base.ComesToMap vars scope entries)
    (found : entries.lookup key = some value) (settles : Settles vars scope value)
    : Settles vars scope (.property base key)
  | missing {base entries key} (comes : base.ComesToMap vars scope entries)
    (absent : entries.lookup key = none)
    : Settles vars scope (.property base key)

/-- The expression is neither a constant nor a map. -/
def Expr.IsOpen (expr : Expr) : Prop :=
  expr.isConstant = false ∧ ∀ entries, expr ≠ .map entries

variable {vars : VarTable} {scope : Nat}

/-- Constants settle, by induction over them. -/
theorem Expr.settles_of_isConstant {expr : Expr} (constant : expr.isConstant = true)
    : expr.Settles vars scope := by
  refine constant_induction (motive := (·.Settles vars scope)) ?_ ?_ ?_ constant
  · exact .literal
  · exact fun _ => .list
  · exact fun _ => .map

/-- The entries of a map that an expression comes to are smaller than the expression, or constants.
-/
theorem Expr.ComesToMap.smaller {expr : Expr} {entries : List (String × Expr)}
    (comes : expr.ComesToMap vars scope entries)
    : ∀ entry ∈ entries, sizeOf entry.2 < sizeOf expr ∨ entry.2.isConstant = true := by
  induction comes with
  | written entries =>
      intro entry member
      have := List.sizeOf_lt_of_mem member
      have := Expr.sizeOf_value_lt entry
      left
      simp
      omega
  | constant found earlier =>
      have constant := VarTable.isConstant_of_measured? found
      exact fun entry member => .inr (allConstantEntries_iff.mp constant entry member)
  | @entry base entries key value inner comes found isMap ih ihInner =>
      intro entry member
      rcases ih (key, value) (mem_of_lookup found) with smaller | constant
      · refine (ihInner entry member).imp_left fun inside => ?_
        simp at smaller ⊢
        omega
      · right
        cases isMap with
        | written => exact allConstantEntries_iff.mp constant entry member
        | _ => cases constant

namespace Stages

variable (stages : Stages vars)

theorem simplify_list (items : List Expr)
    : stages.simplify scope (.list items) = .list (items.map (stages.simplify scope)) := by
  simp only [simplify, Expr.mapParts_list, simplified, orSame, simplifyFunction, simplifyProperty,
    inlineConstant, Except.toOption, Option.getD_some, List.map_map, Function.comp_def]
  rfl

theorem simplify_map (entries : List (String × Expr))
    : stages.simplify scope (.map entries)
      = .map (entries.map fun entry => (entry.1, stages.simplify scope entry.2)) := by
  simp only [simplify, Expr.mapParts_map, simplified, orSame, simplifyFunction, simplifyProperty,
    inlineConstant, Except.toOption, Option.getD_some, List.map_map, Function.comp_def]

theorem simplify_var (id : VarId)
    : stages.simplify scope (.var id) = inlineConstant stages.constants scope (.var id) :=
  rfl

/-- A constant stays as it is. -/
theorem simplify_of_isConstant {expr : Expr} (constant : expr.isConstant = true)
    : stages.simplify scope expr = expr := by
  have functions : expr.mapParts (simplified stages.functions) = expr :=
    Expr.mapParts_of_isConstant constant fun part constant => by
      cases part <;> simp_all
        [Expr.isConstant, simplified, orSame, simplifyFunction, Except.toOption]
  have leaves := leavesConstants_simplifyProperty stages.properties
  rw [simplify, functions, leaves.mapParts_eq_self constant]
  exact Expr.mapParts_of_isConstant constant fun _ => inlineConstant_of_isConstant

/-- A variable of an earlier scope that projects a constant becomes the constant. -/
theorem simplify_var_of_measured {id : VarId} {value : Expr} {declaredIn : Nat}
    (found : vars.measured? id = some (value, declaredIn)) (earlier : declaredIn < scope)
    : stages.simplify scope (.var id) = value := by
  rw [simplify_var]
  simp [inlineConstant, stages.constant, found, earlier]

/-- Any other variable stays. -/
theorem simplify_var_cases (scope : Nat) (id : VarId)
    : stages.simplify scope (.var id) = .var id
      ∨ ∃ value declaredIn,
          vars.measured? id = some (value, declaredIn)
          ∧ declaredIn < scope
          ∧ stages.simplify scope (.var id) = value := by
  cases found : vars.measured? id with
  | none =>
      left
      rw [simplify_var]
      simp [inlineConstant, stages.constant, found]
  | some constant =>
      obtain ⟨value, declaredIn⟩ := constant
      by_cases earlier : declaredIn < scope
      · exact .inr ⟨value, declaredIn, rfl, earlier, stages.simplify_var_of_measured found earlier⟩
      · left
        rw [simplify_var]
        simp [inlineConstant, stages.constant, found, earlier]

/-- A call of an aggregate becomes neither a constant nor a map. -/
theorem simplify_aggregate (scope : Nat) (function : Aggregate) (distinct : Bool) (args : List Expr)
    : (stages.simplify scope (.aggregate function distinct args)).IsOpen := by
  rw [simplify, Expr.mapParts_aggregate]
  cases function <;>
    exact ⟨rfl, nofun⟩

/-- A call becomes the length of a path, or neither a constant nor a map. -/
theorem simplify_call (scope : Nat) (name : String) (args : List Expr)
    : (lowerName name = "length"
        ∧ ∃ hops,
            pathLength? vars args = some hops
            ∧ stages.simplify scope (.call name args) = .literal (.integer hops))
      ∨ ((lowerName name = "length" → pathLength? vars args = none)
          ∧ (stages.simplify scope (.call name args)).IsOpen) := by
  have becomes := simplifies_call stages.functions name
    (args.map (Expr.mapParts (simplified stages.functions)))
  simp only [simplify, Expr.mapParts_call]
  generalize simplified stages.functions (.call name _) = changed at becomes
  cases becomes with
  | length named isPath =>
      rw [pathLength?_map_simplified, pathLength?_congr stages.paths] at isPath
      exact .inl ⟨named, _, isPath, rfl⟩
  | @entity id named isEntity =>
      refine .inr ⟨fun isLength => absurd isLength named, ?_⟩
      have constant := (stages.constant id).trans (stages.entity id isEntity)
      change (inlineConstant stages.constants scope (.var id)).IsOpen
      simp [inlineConstant, constant, Expr.IsOpen, Expr.isConstant]
  | call noPath =>
      rw [pathLength?_map_simplified, pathLength?_congr stages.paths] at noPath
      refine .inr ⟨noPath, ?_⟩
      rw [Expr.mapParts_call]
      change (Expr.mapParts _ (Expr.call ..)).IsOpen
      rw [Expr.mapParts_call]
      exact ⟨rfl, nofun⟩

/-- An entry is looked up in a map; any other property stays one. -/
theorem simplify_property (scope : Nat) (base : Expr) (key : String)
    : (∃ entries,
          stages.simplify scope base = .map entries
          ∧ stages.simplify scope (.property base key) = (entries.lookup key).getD (.literal .null))
      ∨ ((∀ entries, stages.simplify scope base ≠ .map entries)
          ∧ (stages.simplify scope (.property base key)).IsOpen) := by
  have functions : (Expr.property base key).mapParts (simplified stages.functions)
      = .property (base.mapParts (simplified stages.functions)) key :=
    rfl
  simp only [simplify, functions, Expr.mapParts_property]
  generalize (base.mapParts (simplified stages.functions)).mapParts
    (simplifyProperty stages.properties)
    = middle
  by_cases named : ∃ id, middle = .var id ∧ isEntity stages.properties id = true
  · obtain ⟨id, rfl, entity⟩ := named
    have none := stages.named id entity
    have constant := (stages.constant id).trans none.1
    have resolved := (stages.constant _).trans none.2
    right
    simp [simplifyProperty, entity, Expr.mapParts_property, Expr.mapParts_var,
      inlineConstant, constant, resolved, Expr.IsOpen, Expr.isConstant]
  · have same
        : simplifyProperty stages.properties (.property middle key) = .property middle key := by
      unfold simplifyProperty
      split
      · rename_i id _ whole
        obtain ⟨rfl, rfl⟩ := Expr.property.inj whole
        rw [if_neg fun entity => named ⟨id, rfl, entity⟩]
      · rfl
    rw [same, Expr.mapParts_property]
    generalize middle.mapParts (inlineConstant stages.constants scope) = last
    cases last with
    | map entries => exact .inl ⟨entries, rfl, rfl⟩
    | _ => exact .inr ⟨nofun, rfl, nofun⟩

theorem lookup_simplify (entries : List (String × Expr)) (key : String)
    : (entries.map fun entry => (entry.1, stages.simplify scope entry.2)).lookup key
      = (entries.lookup key).map (stages.simplify scope) := by
  induction entries with
  | nil => rfl
  | cons entry rest ih =>
      obtain ⟨own, value⟩ := entry
      cases same : key == own <;> simp [List.lookup_cons, same, ih]

/-- What comes to be a map becomes what the map becomes. -/
theorem simplify_of_comesToMap {expr : Expr} {entries : List (String × Expr)}
    (comes : expr.ComesToMap vars scope entries)
    : stages.simplify scope expr = stages.simplify scope (.map entries) := by
  induction comes with
  | written entries => rfl
  | constant found earlier =>
      rw [stages.simplify_var_of_measured found earlier,
        stages.simplify_of_isConstant (VarTable.isConstant_of_measured? found)]
  | @entry base entries key value inner comes found isMap ih ihInner =>
      rw [← ihInner]
      rw [simplify_map] at ih
      rcases stages.simplify_property scope base key with ⟨entries', isMap, looked⟩ | ⟨noMap, -⟩
      · obtain rfl := Expr.map.inj (ih.symm.trans isMap)
        rw [looked, lookup_simplify, found]
        rfl
      · exact absurd ih (noMap _)

/-- An entry of what comes to be a map becomes what the map holds, or nothing. -/
theorem simplify_entry {base : Expr} {entries : List (String × Expr)} {key : String}
    (comes : base.ComesToMap vars scope entries)
    : stages.simplify scope (.property base key)
      = ((entries.lookup key).map (stages.simplify scope)).getD (.literal .null) := by
  have isMap := stages.simplify_of_comesToMap comes
  rw [simplify_map] at isMap
  rcases stages.simplify_property scope base key with ⟨entries', isMap', looked⟩ | ⟨noMap, -⟩
  · obtain rfl := Expr.map.inj (isMap.symm.trans isMap')
    rw [looked, lookup_simplify]
  · exact absurd isMap (noMap _)

/-- What settles becomes a constant, by induction over how it settles. -/
theorem isConstant_of_settles {expr : Expr} (settles : expr.Settles vars scope)
    : (stages.simplify scope expr).isConstant = true := by
  induction settles with
  | literal value => rfl
  | list each ih =>
      rw [simplify_list]
      exact Expr.allConstant_iff.mpr (List.forall_mem_map.mpr ih)
  | map each ih =>
      rw [simplify_map]
      exact Expr.allConstantEntries_iff.mpr (List.forall_mem_map.mpr ih)
  | @length name args hops named isPath =>
      rcases stages.simplify_call scope name args with ⟨-, _, -, same⟩ | ⟨noPath, -⟩
      · rw [same]
        rfl
      · rw [noPath named] at isPath
        cases isPath
  | constant found earlier =>
      rw [stages.simplify_var_of_measured found earlier]
      exact VarTable.isConstant_of_measured? found
  | entry comes found settles ih =>
      rw [stages.simplify_entry comes, found]
      exact ih
  | missing comes absent =>
      rw [stages.simplify_entry comes, absent]
      rfl

/-- What becomes a map comes to be one. Induction over the size of the expression: what is looked up
in a map is smaller than the expression or a constant.
-/
theorem exists_comesToMap {entries' : List (String × Expr)}
    : ∀ expr : Expr,
        stages.simplify scope expr = .map entries'
        → ∃ entries, expr.ComesToMap vars scope entries
  | .map entries, _ => ⟨entries, .written entries⟩
  | .var id, isMap => by
      rcases stages.simplify_var_cases scope id
        with same | ⟨value, declaredIn, found, earlier, same⟩
      · rw [same] at isMap
        cases isMap
      · rw [isMap] at same
        subst same
        exact ⟨_, .constant found earlier⟩
  | .property base key, isMap => by
      rcases stages.simplify_property scope base key with ⟨_, baseIsMap, -⟩ | ⟨-, opened⟩
      · obtain ⟨entries, comes⟩ := exists_comesToMap base baseIsMap
        rw [stages.simplify_entry comes] at isMap
        cases found : entries.lookup key with
        | none => simp [found] at isMap
        | some value =>
            rw [found] at isMap
            rcases comes.smaller (key, value) (mem_of_lookup found) with smaller | constant
            · have : sizeOf value < sizeOf (Expr.property base key) := by
                simp at smaller ⊢
                omega
              obtain ⟨inner, isMap⟩ := exists_comesToMap value isMap
              exact ⟨inner, .entry comes found isMap⟩
            · have isMap : value = .map entries' :=
                (stages.simplify_of_isConstant constant).symm.trans isMap
              exact ⟨entries', .entry comes found (isMap ▸ .written entries')⟩
      · exact absurd isMap (opened.2 _)
  | .call name args, isMap => by
      rcases stages.simplify_call scope name args with ⟨-, hops, -, same⟩ | ⟨-, opened⟩
      · rw [same] at isMap
        cases isMap
      · exact absurd isMap (opened.2 _)
  | .list items, isMap => by
      rw [simplify_list] at isMap
      cases isMap
  | .aggregate function distinct args, isMap =>
      absurd isMap ((stages.simplify_aggregate scope function distinct args).2 _)
  | .literal _, isMap => by cases isMap
  | .unary _ _, isMap => by cases isMap
  | .binary _ _ _, isMap => by cases isMap
  | .star, isMap => by cases isMap
  | .parameter _, isMap => by cases isMap
  | .column _ _, isMap => by cases isMap
termination_by expr => sizeOf expr

/-- What becomes a constant settles, by induction over the size of the expression. -/
theorem settles_of_isConstant
    : ∀ expr : Expr, (stages.simplify scope expr).isConstant = true → expr.Settles vars scope
  | .literal value, _ => .literal value
  | .list items, constant => by
      rw [simplify_list] at constant
      refine .list fun item member => ?_
      have := List.sizeOf_lt_of_mem member
      exact settles_of_isConstant item
        (Expr.allConstant_iff.mp constant _ (List.mem_map_of_mem member))
  | .map entries, constant => by
      rw [simplify_map] at constant
      refine .map fun entry member => ?_
      have := List.sizeOf_lt_of_mem member
      have := Expr.sizeOf_value_lt entry
      exact settles_of_isConstant entry.2
        (Expr.allConstantEntries_iff.mp constant _ (List.mem_map_of_mem member))
  | .var id, constant => by
      rcases stages.simplify_var_cases scope id with same | ⟨value, declaredIn, found, earlier, -⟩
      · rw [same] at constant
        cases constant
      · exact .constant found earlier
  | .call name args, constant => by
      rcases stages.simplify_call scope name args with ⟨named, hops, isPath, -⟩ | ⟨-, opened⟩
      · exact .length named isPath
      · simp [opened.1] at constant
  | .property base key, constant => by
      rcases stages.simplify_property scope base key with ⟨_, baseIsMap, -⟩ | ⟨-, opened⟩
      · obtain ⟨entries, comes⟩ := stages.exists_comesToMap base baseIsMap
        rw [stages.simplify_entry comes] at constant
        cases found : entries.lookup key with
        | none => exact .missing comes found
        | some value =>
            rw [found] at constant
            refine .entry comes found ?_
            -- What is looked up is an entry of the base, or of a constant that it comes to.
            rcases comes.smaller (key, value) (mem_of_lookup found) with smaller | isConstant
            · have : sizeOf value < sizeOf (Expr.property base key) := by
                simp at smaller ⊢
                omega
              exact settles_of_isConstant value constant
            · exact Expr.settles_of_isConstant isConstant
      · simp [opened.1] at constant
  | .aggregate function distinct args, constant => by
      have opened := (stages.simplify_aggregate scope function distinct args).1
      simp [opened] at constant
  | .unary _ _, constant => by cases constant
  | .binary _ _ _, constant => by cases constant
  | .star, constant => by cases constant
  | .parameter _, constant => by cases constant
  | .column _ _, constant => by cases constant
termination_by expr => sizeOf expr

/-- What becomes a constant is what settles. -/
theorem isConstant_iff_settles (expr : Expr)
    : (stages.simplify scope expr).isConstant = true ↔ expr.Settles vars scope :=
  ⟨stages.settles_of_isConstant expr, stages.isConstant_of_settles⟩

end Stages

/-- A sort key of a scope of a lowered query is a constant exactly if the key that was collected in
its place settles.
-/
theorem lower_sortKeys {catalog : Catalog} {query : Cypher.Query} {walk : Walk} {lowered : Lowered}
    (collected : collect query = .ok walk) (succeeded : lower catalog query = .ok lowered)
    : lowered.tree.Each walk.models fun model scope =>
        List.Forall₂
          (fun written key : SortKey =>
            key.expr.isConstant = true ↔ written.expr.Settles walk.vars scope.index)
          model.sortKeys scope.orderBy := by
  obtain ⟨stages, names, sorts⟩ := lower_sorts collected succeeded
  refine sorts.mono fun model scope _ sorted => ?_
  rw [sorted, List.forall₂_map_right_iff, List.forall₂_same]
  intro key _
  rw [← stages.isConstant_iff_settles]
  exact iff_of_eq (congrArg (· = true) ((leavesConstants_resolveName names).isConstant_mapParts _))

/-- No sort key of a lowered query is a constant exactly if no sort key settles in its scope that
was collected and is not written as a constant: one that is the length of a path, a variable of an
earlier scope that projects a constant, what is looked up in a map, or made of such.
-/
theorem sortKeys_notConstant_iff {catalog : Catalog} {query : Cypher.Query} {walk : Walk}
    {lowered : Lowered} (collected : collect query = .ok walk)
    (succeeded : lower catalog query = .ok lowered)
    : (∀ scope ∈ lowered.tree.scopes, ∀ key ∈ scope.orderBy, key.expr.isConstant = false)
      ↔ ∀ (index : Nat) (model : ScopeModel) (key : SortKey),
          walk.models[index]? = some model
          → key ∈ model.orderBy
          → key.expr.isConstant = false
          → ¬ key.expr.Settles walk.vars index := by
  have each := lower_sortKeys collected succeeded
  constructor
  · intro notConstants index model key found member notConstant settles
    have within : index < lowered.tree.scopes.length := by
      rw [each.length_scopes]
      exact (List.getElem?_eq_some_iff.mp found).1
    obtain ⟨scope, present⟩ : ∃ scope, lowered.tree.scopes[index]? = some scope :=
      ⟨_, List.getElem?_eq_getElem within⟩
    obtain ⟨rfl, other, found', related⟩ := each.getElem? present
    obtain rfl := Option.some.inj (found.symm.trans found')
    have listed : key ∈ model.sortKeys := List.mem_filter.mpr ⟨member, by simp [notConstant]⟩
    obtain ⟨position, at'⟩ := List.mem_iff_getElem?.mp listed
    obtain ⟨last, inside, same⟩ := forall₂_getElem?_left related at'
    have constant := same.mpr settles
    rw [notConstants scope (List.mem_of_getElem? present) last (List.mem_of_getElem? inside)]
      at constant
    cases constant
  · intro noneSettles scope member key inside
    obtain ⟨model, found, related⟩ := each.each scope member
    obtain ⟨position, at'⟩ := List.mem_iff_getElem?.mp inside
    obtain ⟨written, present, same⟩ := forall₂_getElem?_right related at'
    obtain ⟨listed, notConstant⟩ := List.mem_filter.mp (List.mem_of_getElem? present)
    have unsettled :=
      noneSettles scope.index model written found listed (by simpa using notConstant)
    exact Bool.eq_false_iff.mpr (mt same.mp unsettled)

/-- The query `MATCH (a:Person) WITH a, 1 AS x RETURN a ORDER BY x + 1, 2`. -/
def sortedBySum : Cypher.Query where
  clauses :=
    [.matching ⟨false, [⟨none, ⟨some "a", ["Person"], none⟩, []⟩], none⟩,
      .withItems
        ⟨false, [⟨.var "a", none, "a"⟩, ⟨.literal (.integer 1), some "x", "1"⟩], [],
          none, none⟩ none,
      .returnItems
        ⟨false, [⟨.var "a", none, "a"⟩],
          [⟨.binary .addition (.var "x") (.literal (.integer 1)), false⟩,
            ⟨.literal (.integer 2), false⟩],
          none, none⟩]

/-- Witness: a key that is a sum does not settle, and a number is left out. -/
theorem sortedBySum_notConstant
    : ∃ walk lowered,
        collect sortedBySum = .ok walk
        ∧ lower acquaintances.catalog sortedBySum = .ok lowered
        ∧ ∀ scope ∈ lowered.tree.scopes, ∀ key ∈ scope.orderBy, key.expr.isConstant = false := by
  have finished : (lower acquaintances.catalog sortedBySum).toOption.isSome := by decide +kernel
  have keys : ((collect sortedBySum).toOption.any fun walk =>
      walk.models.all fun model => model.orderBy.all fun key =>
        key.expr.isConstant
        || key.expr = .binary .addition (.var "x") (.literal (.integer 1))) = true := by
    decide +kernel
  obtain ⟨lowered, finished⟩ := Option.isSome_iff_exists.mp finished
  obtain ⟨walk, collected, keys⟩ := (Option.any_eq_true _ _).mp keys
  have collected := toOption_eq_some.mp collected
  have succeeded := toOption_eq_some.mp finished
  refine ⟨walk, lowered, collected, succeeded,
    (sortKeys_notConstant_iff collected succeeded).mpr ?_⟩
  intro index model key found member notConstant settles
  have key :=
    List.all_eq_true.mp (List.all_eq_true.mp keys model (List.mem_of_getElem? found)) key member
  rw [notConstant, Bool.false_or, decide_eq_true_iff] at key
  rw [key] at settles
  cases settles

/-- The query `MATCH (a:Person) WITH a, 1 AS x RETURN a ORDER BY x`. -/
def sortedByName : Cypher.Query where
  clauses :=
    [.matching ⟨false, [⟨none, ⟨some "a", ["Person"], none⟩, []⟩], none⟩,
      .withItems
        ⟨false, [⟨.var "a", none, "a"⟩, ⟨.literal (.integer 1), some "x", "1"⟩], [],
          none, none⟩ none,
      .returnItems ⟨false, [⟨.var "a", none, "a"⟩], [⟨.var "x", false⟩], none, none⟩]

/-- A key that is a name of a constant comes to be the constant. -/
theorem sortedByName_constant
    : ∃ lowered,
        lower acquaintances.catalog sortedByName = .ok lowered
        ∧ ∃ scope ∈ lowered.tree.scopes, ∃ key ∈ scope.orderBy,
          key.expr = .literal (.integer 1) := by
  have reached : ((lower acquaintances.catalog sortedByName).toOption.any fun lowered =>
      lowered.tree.scopes.any fun scope => scope.orderBy.any fun key =>
        key.expr = .literal (.integer 1)) = true := by
    decide +kernel
  obtain ⟨lowered, finished, reached⟩ := (Option.any_eq_true _ _).mp reached
  obtain ⟨scope, member, reached⟩ := List.any_eq_true.mp reached
  obtain ⟨key, inside, same⟩ := List.any_eq_true.mp reached
  exact ⟨lowered, toOption_eq_some.mp finished, scope, member, key, inside, of_decide_eq_true same⟩

end CypherSql.Plan
