import CypherSql.Proofs.Sharing.Rewriting

/-! The steps that simplify expressions treat the variants of a query alike: they look at nothing
but what variables with written ids stand for.
-/

namespace CypherSql.Plan

variable {vars other : VarTable} {order orderOther declared declaredOther : List VarId} {id : VarId}

/-- The shape of a node or relationship. -/
def Shape.isElement : Shape → Bool
  | .node => true
  | .relationship => true
  | _ => false

/-- The expression of a projection. -/
def Shape.projection? : Shape → Option Expr
  | .projected expr => some expr
  | _ => none

/-- The hops and the first element of a path. -/
def Shape.path? : Shape → Option (Nat × Option VarId)
  | .path hops first => some (hops, first)
  | _ => none

namespace VarTable

theorem Agree.resolve_eq (agree : vars.Agree other) (ordered : vars.Ordered order)
    (orderedOther : other.Ordered orderOther) (written : Written id)
    : vars.resolve id = other.resolve id ∧ Written (vars.resolve id) :=
  (agree.shares.sharesNames agree.plain).resolve ordered orderedOther written

/-- A variable stands for a node or relationship if what it resolves to has such a shape. -/
theorem Typed.isEntity_eq (typed : vars.Typed declared) (id : VarId)
    : isEntity vars id
      = ((vars.get? (vars.resolve id)).map Variable.shape).any fun shape => shape.2.isElement := by
  obtain ⟨_, -, ordered⟩ := typed.coherent.inOrder
  have last := ordered.target?_resolve id
  cases found : vars.get? (vars.resolve id) with
  | none => simp [isEntity, VarTable.type?, VarTable.definition?, found]
  | some var =>
      have defined := VarTable.definition?_of_get? found
      have type : vars.type? id = var.definition.type? := by
        rw [VarTable.type?, defined, Option.bind_some]
      rw [VarTable.target?, defined, Option.bind_some] at last
      rw [isEntity, type, Option.map_some, Option.any_some, Variable.shape]
      cases kind : var.definition with
      | projected expr type =>
          have noName (target : VarId) : expr ≠ .var target := by
            rintro rfl
            simp [kind, Definition.target?] at last
          rw [typed.scalars _ var expr type found kind noName]
          rfl
      | _ => rfl

/-- A variable with a written id stands for a node or relationship in both variants or in none. -/
theorem Agree.isEntity_eq (agree : vars.Agree other) (typed : vars.Typed declared)
    (typedOther : other.Typed declaredOther) (written : Written id)
    : isEntity vars id = isEntity other id := by
  obtain ⟨_, -, ordered⟩ := typed.coherent.inOrder
  obtain ⟨_, -, orderedOther⟩ := typedOther.coherent.inOrder
  obtain ⟨same, isWritten⟩ := agree.resolve_eq ordered orderedOther written
  rw [typed.isEntity_eq, typedOther.isEntity_eq, ← same, agree.shares _ isWritten]

theorem pathOf?_map (vars : VarTable) (id : VarId)
    : (pathOf? vars id).map (fun path => (path.1, path.2.head?))
      = ((vars.get? (vars.resolve id)).map Variable.shape).bind fun shape => shape.2.path? := by
  rw [pathOf?_eq, VarTable.definition?]
  cases vars.get? (vars.resolve id) with
  | none => rfl
  | some var =>
      obtain ⟨name, _, scope, definition⟩ := var
      cases definition <;> rfl

/-- A variable with a written id stands for a path in both variants or in none, with as many hops
and with the same first node, which has a written id.
-/
theorem Agree.pathOf?_eq (agree : vars.Agree other) (ordered : vars.Ordered order)
    (orderedOther : other.Ordered orderOther) (written : Written id)
    : (pathOf? vars id).map (fun path => (path.1, path.2.head?))
        = (pathOf? other id).map (fun path => (path.1, path.2.head?))
      ∧ ∀ path first, pathOf? vars id = some path → path.2.head? = some first → Written first := by
  obtain ⟨same, isWritten⟩ := agree.resolve_eq ordered orderedOther written
  refine ⟨by rw [pathOf?_map, pathOf?_map, ← same, agree.shares _ isWritten], ?_⟩
  intro path first isPath isFirst
  rw [Plan.pathOf?_eq] at isPath
  obtain ⟨definition, defined, isPath⟩ := Option.bind_eq_some_iff.mp isPath
  obtain ⟨var, found, rfl⟩ := VarTable.definition?_eq_some.mp defined
  exact agree.plain.starts found isWritten isPath isFirst

/-- A variable with a written id projects the same constant in both variants, if any. -/
theorem Agree.constant?_eq (agree : vars.Agree other) (written : Written id)
    : constant? vars id = constant? other id := by
  have constant (vars : VarTable)
      : constant? vars id
        = ((vars.get? id).map Variable.shape).bind fun shape =>
            match shape.2 with
            | .projected expr => if expr.isConstant then some (expr, shape.1) else none
            | _ => none := by
    unfold constant?
    cases vars.get? id with
    | none => rfl
    | some var =>
        obtain ⟨name, _, scope, definition⟩ := var
        cases definition <;> rfl
  rw [constant, constant, agree.shares id written]

end VarTable

/-- Both fail, or both give the same expression, which mentions written ids only. -/
def SameResult (left right : Except LoweringError Expr) : Prop :=
  left.toOption = right.toOption ∧ ∀ expr, left = .ok expr → expr.Within Written

theorem sameResult_ok {expr : Expr} (isWithin : expr.Within Written)
    : SameResult (.ok expr) (.ok expr) :=
  ⟨rfl, by rintro _ ⟨⟩; exact isWithin⟩

theorem sameResult_knownCall (name : String) {args : List Expr}
    (within : ∀ arg ∈ args, arg.Within Written)
    : SameResult (knownCall name args) (knownCall name args) := by
  refine ⟨rfl, fun expr known => ?_⟩
  unfold knownCall at known
  split at known
  · obtain rfl := Except.ok.inj known
    exact Expr.within_call.mpr within
  · cases known

section Functions

variable (agree : vars.Agree other) (typed : vars.Typed declared)
  (typedOther : other.Typed declaredOther)
  {args : List Expr} (within : ∀ arg ∈ args, arg.Within Written)

include agree typed typedOther within

theorem sameResult_simplifyId : SameResult (simplifyId vars args) (simplifyId other args) := by
  unfold simplifyId
  split
  · rename_i id
    have isWithin := within (.var id) (by simp)
    rw [← agree.isEntity_eq typed typedOther (Expr.within_var.mp isWithin)]
    split
    · exact sameResult_ok isWithin
    · exact ⟨rfl, by rintro _ ⟨⟩⟩
  · exact ⟨rfl, by rintro _ ⟨⟩⟩

theorem pathLength?_agree : pathLength? vars args = pathLength? other args := by
  obtain ⟨_, -, ordered⟩ := typed.coherent.inOrder
  obtain ⟨_, -, orderedOther⟩ := typedOther.coherent.inOrder
  unfold pathLength?
  split
  · rename_i id
    have written := Expr.within_var.mp (within (.var id) (by simp))
    have same := congrArg (Option.map Prod.fst) (agree.pathOf?_eq ordered orderedOther written).1
    rwa [Option.map_map, Option.map_map] at same
  · rfl

theorem sameResult_simplifyCall (name : String)
    : SameResult (simplifyCall vars name args) (simplifyCall other name args) := by
  unfold simplifyCall
  rw [← pathLength?_agree agree typed typedOther within]
  split
  · exact sameResult_simplifyId agree typed typedOther within
  · split
    · split
      · exact sameResult_ok Expr.within_literal
      · exact sameResult_knownCall name within
    · exact sameResult_knownCall name within

theorem countArgs_agree
    : countArgs vars args = countArgs other args
      ∧ ∀ arg ∈ countArgs vars args, arg.Within Written := by
  obtain ⟨_, -, ordered⟩ := typed.coherent.inOrder
  obtain ⟨_, -, orderedOther⟩ := typedOther.coherent.inOrder
  unfold countArgs
  split
  · rename_i id
    have written := Expr.within_var.mp (within (.var id) (by simp))
    obtain ⟨same, starts⟩ := agree.pathOf?_eq ordered orderedOther written
    have first (vars : VarTable)
        : (pathOf? vars id).bind (·.2.head?)
          = ((pathOf? vars id).map fun path => (path.1, path.2.head?)).bind (·.2) := by
      rw [Option.bind_map]
      rfl
    rw [first other, ← same, ← first vars]
    refine ⟨rfl, ?_⟩
    split
    · rename_i start found
      obtain ⟨path, isPath, isFirst⟩ := Option.bind_eq_some_iff.mp found
      simpa using starts path start isPath isFirst
    · exact within
  · exact ⟨rfl, within⟩

omit within

/-- Functions over variables with written ids are simplified to the same in both variants. -/
theorem agreeOver_simplified : Expr.AgreeOver Written (simplified vars) (simplified other) := by
  have replaced {part : Expr} (isWithin : part.Within Written)
    {left right : Except LoweringError Expr}
      (same : SameResult left right)
      : left.toOption.getD part = right.toOption.getD part
        ∧ (left.toOption.getD part).Within Written := by
    refine ⟨by rw [same.1], ?_⟩
    cases left with
    | ok expr => exact same.2 expr rfl
    | error cause => exact isWithin
  intro part isWithin
  have kept (same : simplifyFunction vars part = .ok part)
    (sameOther : simplifyFunction other part = .ok part)
      : simplified vars part = simplified other part ∧ (simplified vars part).Within Written := by
    rw [simplified, simplified, Expr.orSame_of_ok same, Expr.orSame_of_ok sameOther]
    exact ⟨rfl, isWithin⟩
  cases part with
  | call name args =>
      exact replaced isWithin
        (sameResult_simplifyCall agree typed typedOther (Expr.within_call.mp isWithin) name)
  | aggregate function distinct args =>
      cases function with
      | count =>
          obtain ⟨same, isWithin⟩ :=
            countArgs_agree agree typed typedOther (Expr.within_aggregate.mp isWithin)
          exact ⟨congrArg (Expr.aggregate .count distinct) same, Expr.within_aggregate.mpr isWithin⟩
      | _ => exact kept rfl rfl
  | _ => exact kept rfl rfl

/-- Properties of variables with written ids are simplified to the same in both variants. -/
theorem agreeOver_simplifyProperty
    : Expr.AgreeOver Written (simplifyProperty vars) (simplifyProperty other) := by
  obtain ⟨_, -, ordered⟩ := typed.coherent.inOrder
  obtain ⟨_, -, orderedOther⟩ := typedOther.coherent.inOrder
  intro part isWithin
  unfold simplifyProperty
  split
  · rename_i id key
    have written := Expr.within_var.mp (Expr.within_property.mp isWithin)
    obtain ⟨same, isWritten⟩ := agree.resolve_eq ordered orderedOther written
    rw [← agree.isEntity_eq typed typedOther written, ← same]
    refine ⟨rfl, Expr.within_property.mpr (Expr.within_var.mpr ?_)⟩
    split
    · exact isWritten
    · exact written
  · exact ⟨rfl, isWithin⟩

end Functions

/-- Constants are put in place of the same variables with written ids in both variants. -/
theorem agreeOver_inlineConstant (agree : vars.Agree other) (scope : Nat)
    : Expr.AgreeOver Written (inlineConstant vars scope) (inlineConstant other scope) := by
  intro part isWithin
  refine ⟨?_, inlineConstant_within scope isWithin⟩
  cases part with
  | var id => simp only [inlineConstant, agree.constant?_eq (Expr.within_var.mp isWithin)]
  | property base key => cases base <;> rfl
  | _ => rfl

/-- The variables are well formed and have their types. -/
def VarTable.WellTyped (vars : VarTable) : Prop :=
  ∃ declared, vars.Typed declared

theorem rewritesAlike_simplified
    : RewritesAlike VarTable.WellTyped fun vars _ expr => expr.mapParts (simplified vars) := by
  rintro vars other agree ⟨_, typed⟩ ⟨_, typedOther⟩ site expr isWithin
  have agrees := agreeOver_simplified agree typed typedOther
  exact ⟨agrees.mapParts_eq expr isWithin, agrees.within isWithin⟩

theorem rewritesAlike_simplifyProperty
    : RewritesAlike VarTable.WellTyped fun vars _ expr =>
      expr.mapParts (simplifyProperty vars) := by
  rintro vars other agree ⟨_, typed⟩ ⟨_, typedOther⟩ site expr isWithin
  have agrees := agreeOver_simplifyProperty agree typed typedOther
  exact ⟨agrees.mapParts_eq expr isWithin, agrees.within isWithin⟩

theorem rewritesAlike_replaceConstants : RewritesAlike (fun _ => True) replaceConstants := by
  intro vars other agree _ _ site expr isWithin
  have agrees := agreeOver_inlineConstant agree site.scope
  unfold replaceConstants
  split
  · exact ⟨rfl, isWithin⟩
  · exact ⟨agrees.mapParts_eq expr isWithin, agrees.within isWithin⟩

/-- Simplifying the functions of what a variable projects keeps the types. -/
theorem simplifyFunctions_keepsTyped
    : RefreshesKeep Modality.ofOk (fun vars _ expr => expr.mapPartsM (simplifyFunction vars))
        fun vars later => vars.WellTyped → later.WellTyped := by
  rintro vars site expr changed becomes id var type found projects different ⟨declared, typed⟩
  have keeps :=
    simplifyFunctions_keepsPaths vars site expr changed becomes id var type found projects
    different typed
  exact ⟨declared, keeps.1⟩

/-- So does simplifying its properties. -/
theorem simplifyProperties_keepsTyped
    : RefreshesKeep Modality.ofId (fun vars _ expr => pure (expr.mapParts (simplifyProperty vars)))
        fun vars later => vars.WellTyped → later.WellTyped := by
  rintro vars site expr id var type found projects different ⟨declared, typed⟩
  have coherent :=
    simplifyProperties_within.coherent (fun _ _ => .inl rfl) typed.coherent found projects
    site different
  refine ⟨declared, typed.redefine found projects ?_ coherent⟩
  rintro target rfl
  exact different rfl

/-- Simplifying all functions keeps the types. -/
theorem Draft.wellTyped_simplifyFunctions {draft later : Draft} (typed : draft.vars.WellTyped)
    (succeeded : simplifyFunctions draft = .ok later)
    : later.vars.WellTyped := by
  obtain ⟨declared, typed⟩ := typed
  exact ⟨declared, ((Draft.simplifyFunctions_visits succeeded).kept typed).1⟩

/-- Other names of variables with written ids are resolved to the same. -/
theorem agreeOver_resolveName (names : vars.SharesNames other) (ordered : vars.Ordered order)
    (orderedOther : other.Ordered orderOther)
    : Expr.AgreeOver Written (resolveName vars) (resolveName other) := by
  intro part isWithin
  cases part with
  | var id =>
      obtain ⟨same, written⟩ := names.resolve ordered orderedOther (Expr.within_var.mp isWithin)
      exact ⟨congrArg Expr.var same, Expr.within_var.mpr written⟩
  | _ => exact ⟨rfl, isWithin⟩

end CypherSql.Plan
