import CypherSql.Proofs.Inlining.Dropping
import CypherSql.Proofs.Integrity.Layers

/-! The steps after constants are inlined: noting which properties are read, and putting variables
in place of other names of them. They leave what projects a constant, and whether it is mentioned.
-/

namespace CypherSql.Plan

variable {draft later : Draft} {vars varsLater : VarTable} {id : VarId} {scope : Nat} {expr : Expr}

/-- Another name of a variable projects it. -/
theorem Definition.projection?_of_target? {definition : Definition} {target : VarId}
    (named : definition.target? = some target)
    : definition.projection? = some (.var target) := by
  unfold Definition.target? at named
  split at named
  · rw [← Option.some.inj named]
    rfl
  · cases named

/-- A constant is no other name of a variable. -/
theorem target?_of_constant? {value : Expr × Nat} (found : constant? vars id = some value)
    : vars.target? id = none := by
  obtain ⟨var, type, present, projects, -, constant⟩ := constant?_eq_some found
  rw [VarTable.target?, VarTable.definition?_of_get? present, projects]
  cases kind : value.1 <;> simp_all [Definition.target?, Expr.isConstant]

/-- Constants are what variables project, and where. -/
theorem VarTable.SameProjections.constant? (same : vars.SameProjections varsLater) (id : VarId)
    : Plan.constant? varsLater id = Plan.constant? vars id := by
  have forward {first second : VarTable} (same : first.SameProjections second) {value : Expr × Nat}
      (found : Plan.constant? first id = some value)
      : Plan.constant? second id = some value := by
    obtain ⟨var, present, projects, here, constant⟩ := constant?_eq_some_iff.mp found
    obtain ⟨other, found, projection⟩ := same.get? present
    obtain ⟨scope, projection⟩ := Prod.mk.inj projection
    exact constant?_eq_some_iff.mpr
      ⟨other, found, projection.trans projects, scope.trans here, constant⟩
  cases before : Plan.constant? vars id with
  | some value => exact forward same before
  | none =>
      cases after : Plan.constant? varsLater id with
      | none => rfl
      | some value =>
          have found := forward (fun id => (same id).symm) after
          simp [before] at found

theorem VarTable.earlierConstant_congr (same : ∀ id, constant? varsLater id = constant? vars id)
    : varsLater.EarlierConstant scope id ↔ vars.EarlierConstant scope id := by
  simp only [VarTable.EarlierConstant, same]

/-- Noting which properties are read leaves what is evaluated. -/
theorem Draft.evaluates_markProperties
    : (markProperties draft).Evaluates scope expr ↔ draft.Evaluates scope expr := by
  have same := foldl_markRead_sameProjections (propertyReads draft.tree draft.vars) draft.vars
  have forward {first second : Draft} (tree : second.tree = first.tree)
      (same : first.vars.SameProjections second.vars) (evaluates : first.Evaluates scope expr)
      : second.Evaluates scope expr := by
    cases evaluates with
    | expression member inside => exact .expression (tree ▸ member) inside
    | projection found projects =>
        obtain ⟨other, found', projection⟩ := same.get? found
        obtain ⟨scope, projection⟩ := Prod.mk.inj projection
        exact scope ▸ .projection found' (projection.trans projects)
  exact ⟨forward rfl fun id => (same id).symm, forward rfl same⟩

theorem Draft.inlined_markProperties : (markProperties draft).Inlined ↔ draft.Inlined := by
  have same :=
    (foldl_markRead_sameProjections (propertyReads draft.tree draft.vars) draft.vars).constant?
  simp only [Draft.Inlined, Draft.evaluates_markProperties, Expr.MentionsConstant]
  simp only [markProperties, VarTable.earlierConstant_congr same]

/-- Resolving names makes no constants. -/
theorem leavesConstants_resolveName (vars : VarTable)
    : Expr.LeavesConstants (resolveName vars) where
  literal := fun _ => rfl
  list := fun _ => rfl
  map := fun _ => rfl
  others := fun expr => by cases expr <;> simp [resolveName, Expr.isConstant]

/-- A variable is mentioned once names are resolved exactly if a name of it was. -/
theorem Expr.var_mem_parts_resolveName
    : .var id ∈ (expr.mapParts (resolveName vars)).parts
      ↔ ∃ name, .var name ∈ expr.parts ∧ vars.resolve name = id := by
  rw [Expr.parts_resolveName, List.mem_map]
  constructor
  · rintro ⟨part, inside, same⟩
    cases part with
    | var name => exact ⟨name, inside, Expr.var.inj same⟩
    | list items => rw [Expr.mapParts_list] at same; cases same
    | map entries => rw [Expr.mapParts_map] at same; cases same
    | aggregate function distinct args => rw [Expr.mapParts_aggregate] at same; cases same
    | call name args => rw [Expr.mapParts_call] at same; cases same
    | _ => cases same
  · rintro ⟨name, inside, rfl⟩
    exact ⟨.var name, inside, rfl⟩

section Resolving

variable {declared : List VarId} (coherent : draft.vars.Coherent declared)

include coherent

/-- What each variable projects once names are resolved. -/
theorem Draft.get?_resolveNames (id : VarId)
    : (resolveNames draft).vars.get? id
      = (draft.vars.get? id).map (·.mapProjection (Expr.mapParts (resolveName draft.vars))) := by
  have each := (mapProjections_resolveName draft.vars.vars.keys_nodup coherent).2 id
  refine each.trans ?_
  split
  · rfl
  · rename_i absent
    have absent : draft.vars.get? id = none := by
      simpa [VarTable.mem_ids] using mt VarTable.mem_ids.mpr absent
    rw [absent]
    rfl

/-- What is evaluated once names are resolved is what was evaluated, with names resolved. -/
theorem Draft.evaluates_resolveNames
    : (resolveNames draft).Evaluates scope expr
      ↔ ∃ old, draft.Evaluates scope old ∧ old.mapParts (resolveName draft.vars) = expr := by
  constructor
  · intro evaluates
    cases evaluates with
    | expression member inside =>
        rw [resolveNames, Draft.scopes_mapExprs] at member
        obtain ⟨old, present, rfl⟩ := List.mem_map.mp member
        rw [Scope.evaluated_mapExprs] at inside
        obtain ⟨source, inOld, same⟩ := List.mem_map.mp inside
        rw [Scope.index_mapExprs]
        exact ⟨source, .expression present inOld, same⟩
    | projection found projects =>
        rw [Draft.get?_resolveNames coherent] at found
        obtain ⟨old, present, rfl⟩ := Option.map_eq_some_iff.mp found
        obtain ⟨scope, projection⟩ :=
          Prod.mk.inj (old.projection_mapProjection (Expr.mapParts (resolveName draft.vars)))
        rw [projection] at projects
        obtain ⟨source, projected, same⟩ := Option.map_eq_some_iff.mp projects
        exact scope ▸ ⟨source, .projection present projected, same⟩
  · rintro ⟨old, evaluates, rfl⟩
    cases evaluates with
    | @expression scope old member inside =>
        rw [← scope.index_mapExprs (f := fun _ expr => expr.mapParts (resolveName draft.vars))]
        refine .expression ?_ ?_
        · rw [resolveNames, Draft.scopes_mapExprs]
          exact List.mem_map_of_mem member
        · rw [Scope.evaluated_mapExprs]
          exact List.mem_map_of_mem inside
    | @projection id var old found projects =>
        obtain ⟨scope, projection⟩ :=
          Prod.mk.inj (var.projection_mapProjection (Expr.mapParts (resolveName draft.vars)))
        have present : (resolveNames draft).vars.get? id
            = some (var.mapProjection (Expr.mapParts (resolveName draft.vars))) := by
          rw [Draft.get?_resolveNames coherent, found, Option.map_some]
        exact scope ▸ .projection present (by rw [projection, projects, Option.map_some])

/-- The constants are the same once names are resolved. -/
theorem Draft.constant?_resolveNames (id : VarId)
    : constant? (resolveNames draft).vars id = constant? draft.vars id := by
  cases found : draft.vars.get? id with
  | none =>
      rw [constant?_of_get?_none found, constant?_of_get?_none]
      rw [Draft.get?_resolveNames coherent, found]
      rfl
  | some var =>
      have later := (Draft.get?_resolveNames coherent id).trans (by rw [found, Option.map_some])
      obtain ⟨scope, projection⟩ :=
        Prod.mk.inj (var.projection_mapProjection (Expr.mapParts (resolveName draft.vars)))
      simp only [constant?, found, later, Option.bind_eq_bind, Option.bind_some, scope, projection]
      cases var.definition.projection? with
      | none => rfl
      | some expr =>
          simp only [Option.map_some, Option.bind_some,
            (leavesConstants_resolveName draft.vars).isConstant_mapParts expr]
          split
          · rename_i constant
            rw [(leavesConstants_resolveName draft.vars).mapParts_eq_self constant]
          · rfl

omit coherent in
/-- Where something mentions a name of a constant of an earlier scope, something mentions the
constant itself: the last name before it does. Induction over the chain of names.
-/
theorem Draft.not_inlined_of_name {order : List VarId} (ordered : draft.vars.Ordered order)
    (layered : draft.vars.Layered) {name : VarId} (evaluates : draft.Evaluates scope expr)
    (inside : .var name ∈ expr.parts)
    (earlier : draft.vars.EarlierConstant scope (draft.vars.resolve name))
    : ¬ draft.Inlined := by
  induction name using ordered.chain_induction generalizing scope expr with
  | last name found =>
      rw [VarTable.Ordered.resolve_of_target_none found] at earlier
      exact fun inlined => inlined scope expr evaluates ⟨name, inside, earlier⟩
  | next name target found ih =>
      rw [ordered.resolve_of_target found] at earlier
      obtain ⟨value, declaredIn, constant, -⟩ := earlier
      obtain ⟨definition, defined, named⟩ := Option.bind_eq_some_iff.mp found
      obtain ⟨var, present, rfl⟩ := VarTable.definition?_eq_some.mp defined
      have projects := Definition.projection?_of_target? named
      have depends := Definition.target?_mem_dependencies name named
      obtain ⟨before, isTarget, behind⟩ := layered present target depends
      have targetProjects : before.definition.projection? ≠ none := by
        intro unprojected
        have last : draft.vars.target? target = none := by
          rw [VarTable.target?, VarTable.definition?_of_get? isTarget, Option.bind_some]
          cases next : before.definition.target? with
          | none => rfl
          | some other => simp [Definition.projection?_of_target? next] at unprojected
        rw [VarTable.Ordered.resolve_of_target_none last] at constant
        obtain ⟨same, isSame, projects, -⟩ := constant?_eq_some_iff.mp constant
        obtain rfl := Option.some.inj (isTarget.symm.trans isSame)
        simp [unprojected] at projects
      have behind : before.scope < var.scope :=
        behind.resolve_right fun own => targetProjects own.2
      have upto : draft.vars.Upto before.scope (draft.vars.resolve target) :=
        (layered.closed_upto before.scope).resolve ordered ⟨before, isTarget, Nat.le_refl _⟩
      refine ih (.projection present projects) (Expr.self_mem_parts _)
        ⟨value, declaredIn, constant, ?_⟩
      obtain ⟨last, isLast, -, here, -⟩ := constant?_eq_some_iff.mp constant
      obtain ⟨same, found, within⟩ := upto
      obtain rfl := Option.some.inj (found.symm.trans isLast)
      omega

/-- Resolving names makes no expression mention a constant of an earlier scope, unless some did. -/
theorem Draft.inlined_resolveNames (layered : draft.vars.Layered)
    : (resolveNames draft).Inlined ↔ draft.Inlined := by
  obtain ⟨_, -, ordered⟩ := coherent.inOrder
  have same := Draft.constant?_resolveNames coherent
  constructor
  · rintro inlined scope expr evaluates ⟨id, inside, earlier⟩
    refine inlined scope _ ((Draft.evaluates_resolveNames coherent).mpr ⟨expr, evaluates, rfl⟩)
      ⟨id, ?_, (VarTable.earlierConstant_congr same).mpr earlier⟩
    refine Expr.var_mem_parts_resolveName.mpr
      ⟨id, inside, VarTable.Ordered.resolve_of_target_none ?_⟩
    obtain ⟨value, declaredIn, found, -⟩ := earlier
    exact target?_of_constant? found
  · rintro inlined scope _ resolved ⟨id, present, earlier⟩
    obtain ⟨expr, evaluates, rfl⟩ := (Draft.evaluates_resolveNames coherent).mp resolved
    obtain ⟨name, inside, rfl⟩ := Expr.var_mem_parts_resolveName.mp present
    have earlier := (VarTable.earlierConstant_congr same).mp earlier
    exact Draft.not_inlined_of_name ordered layered evaluates inside earlier inlined

end Resolving

end CypherSql.Plan
