import CypherSql.Proofs.Rewriting
import CypherSql.Proofs.Variables.Changes

/-! The steps that simplify expressions keep the variables in order and linked. Whatever they put in
place of a variable refers to nothing that is declared later, and they drop only variables that no
definition refers to.
-/

namespace CypherSql.Plan

namespace Expr

/-- An expression refers to allowed variables only, be it by themselves or by their columns. -/
def Within (allowed : VarId → Prop) (expr : Expr) : Prop :=
  ∀ id ∈ expr.references, allowed id

variable {allowed : VarId → Prop}

theorem within_iff {expr : Expr}
    : expr.Within allowed ↔ ∀ part ∈ expr.parts, ∀ id, part.reference? = some id → allowed id := by
  simp only [Within, mem_references]
  constructor
  · intro all part inside id refers
    exact all id ⟨part, inside, refers⟩
  · intro all id member
    obtain ⟨part, inside, refers⟩ := member
    exact all part inside id refers

theorem inherited_within : Inherited (Within allowed) := by
  have inherited : Inherited fun expr =>
      ∀ part ∈ expr.parts, ∀ id, part.reference? = some id → allowed id :=
    inherited_parts fun part compound => by
      cases part with
      | var | column => cases compound
      | _ => simp [reference?]
  simpa only [← within_iff] using inherited

@[simp]
theorem within_literal {value : Literal} : (Expr.literal value).Within allowed := by
  simp [within_iff, parts, reference?]

@[simp]
theorem within_var {id : VarId} : (Expr.var id).Within allowed ↔ allowed id := by
  simp [within_iff, parts, reference?]

@[simp]
theorem within_property {base : Expr} {key : String}
    : (Expr.property base key).Within allowed ↔ base.Within allowed :=
  inherited_within.property

@[simp]
theorem within_unary {op : UnaryOp} {operand : Expr}
    : (Expr.unary op operand).Within allowed ↔ operand.Within allowed :=
  inherited_within.unary

@[simp]
theorem within_binary {op : BinaryOp} {left right : Expr}
    : (Expr.binary op left right).Within allowed ↔ left.Within allowed ∧ right.Within allowed :=
  inherited_within.binary

@[simp]
theorem within_list {items : List Expr}
    : (Expr.list items).Within allowed ↔ ∀ item ∈ items, item.Within allowed :=
  inherited_within.list

@[simp]
theorem within_aggregate {function : Aggregate} {distinct : Bool} {args : List Expr}
    : (Expr.aggregate function distinct args).Within allowed ↔ ∀ arg ∈ args, arg.Within allowed :=
  inherited_within.aggregate

@[simp]
theorem within_call {name : String} {args : List Expr}
    : (Expr.call name args).Within allowed ↔ ∀ arg ∈ args, arg.Within allowed :=
  inherited_within.call

@[simp]
theorem within_map {entries : List (String × Expr)}
    : (Expr.map entries).Within allowed ↔ ∀ entry ∈ entries, entry.2.Within allowed :=
  inherited_within.map

/-- Rewriting an expression part by part refers to allowed variables if every part does so. -/
theorem mapPartsM_within {m : Type → Type} [Monad m] (modality : Modality m) {f : Expr → m Expr}
    (each : ∀ part, part.Within allowed → modality.Holds (Within allowed) (f part)) (expr : Expr)
    (within : expr.Within allowed)
    : modality.Holds (Within allowed) (expr.mapPartsM f) :=
  inherited_within.mapPartsM modality each expr within

end Expr

section Rewriting

variable {m : Type → Type} [Monad m] (modality : Modality m) {f : VarTable → Site → Expr → m Expr}
  {declared : List VarId}

/-- Rewriting refers to nothing but what was referred to and what that depends on. -/
def RewritesWithin (f : VarTable → Site → Expr → m Expr) : Prop :=
  ∀ {vars order allowed} (site : Site) (expr : Expr),
    vars.Ordered order
    → vars.Closed allowed
    → expr.Within allowed
    → modality.Holds (Expr.Within allowed) (f vars site expr)

/-- Rewriting leaves other names of nodes as they are, or puts the nodes in their place. -/
def RewritesNames (f : VarTable → Site → Expr → m Expr) : Prop :=
  ∀ {vars target} (site : Site),
    vars.StandsForNode target
    → modality.Holds
        (fun changed => changed = .var target ∨ changed = .var (vars.resolve target))
        (f vars site (.var target))

/-- Replacing what one variable projects keeps the table coherent. -/
theorem RewritesWithin.coherent [LawfulMonad m] {modality : Modality m}
    (within : RewritesWithin modality f) (names : RewritesNames modality f) {vars : VarTable}
    (coherent : vars.Coherent declared) {id : VarId} {var : Variable} {expr : Expr}
    {type : Option VarType} (found : vars.get? id = some var)
    (projects : var.definition = .projected expr type) (site : Site)
    : modality.Holds
        (fun changed =>
          changed ≠ expr
            → ((vars.redefine id (.projected changed type)).refresh id).Coherent declared)
        (f vars site expr) := by
  obtain ⟨order, kept, ordered⟩ := coherent.inOrder
  have closed := ordered.closed_precedes id
  have earlier : expr.Within (vars.Precedes order id) := by
    intro dep refers
    exact ordered.precedes found (by rwa [projects])
  by_cases naming : ∃ target, expr = .var target ∧ vars.StandsForNode target
  · obtain ⟨target, rfl, stands⟩ := naming
    refine modality.mono (names site stands) fun changed same different => ?_
    have resolved := same.resolve_left different
    refine VarTable.Coherent.project coherent.linked ordered kept found projects ?_ ?_
    · rw [resolved]
      exact Expr.within_var.mpr (closed.resolve ordered (Expr.within_var.mp earlier))
    · intro other same _
      obtain rfl := Expr.var.inj same
      exact resolved
  · refine modality.mono (within site expr ordered closed earlier) fun changed precedes _ => ?_
    refine VarTable.Coherent.project coherent.linked ordered kept found projects precedes ?_
    intro target same stands
    exact absurd ⟨target, same, stands⟩ naming

/-- Replacing what variables project keeps the table coherent, by induction over the variables. -/
theorem mapProjectionsM_coherent [LawfulMonad m] (within : RewritesWithin modality f)
    (names : RewritesNames modality f) (ids : List VarId) {vars : VarTable}
    (coherent : vars.Coherent declared)
    : modality.Holds (VarTable.Coherent declared) (mapProjectionsM f ids vars) := by
  induction ids generalizing vars with
  | nil => exact modality.pure coherent
  | cons id rest ih =>
      unfold mapProjectionsM
      split
      · rename_i name other scope expr type found
        refine modality.bind (within.coherent names coherent found rfl _) fun changed keeps => ?_
        split
        · exact ih coherent
        · exact ih (keeps ‹_›)
      · exact ih coherent

/-- Rewriting all expressions of a draft keeps its table coherent. -/
theorem Draft.mapExprsM_coherent [LawfulMonad m]
    (any : ∀ {α : Type} (result : m α), modality.Holds (fun _ => True) result)
    (within : RewritesWithin modality f) (names : RewritesNames modality f) {draft : Draft}
    (coherent : draft.vars.Coherent declared)
    : modality.Holds (fun later => later.vars.Coherent declared) (draft.mapExprsM f) := by
  unfold Draft.mapExprsM
  refine modality.bind (any _) fun tree _ => ?_
  refine modality.bind (mapProjectionsM_coherent modality within names _ coherent)
    fun vars kept => ?_
  exact modality.pure kept

end Rewriting

section Parts

variable {vars : VarTable} {order : List VarId} {allowed : VarId → Prop}

/-- The elements of the path that a variable stands for are what its definition depends on. -/
theorem VarTable.Closed.path (closed : vars.Closed allowed)
    (ordered : vars.Ordered order) {id : VarId}
    (holds : allowed id) {hops : Nat} {elements : List VarId}
    (isPath : pathOf? vars id = some (hops, elements))
    : ∀ element ∈ elements, allowed element := by
  intro element member
  unfold pathOf? at isPath
  split at isPath
  · rename_i hops' elements' found
    obtain ⟨rfl, rfl⟩ := Prod.mk.inj (Option.some.inj isPath)
    obtain ⟨var, present, definition⟩ := VarTable.definition?_eq_some.mp found
    refine closed _ _ _ present (closed.resolve ordered holds) ?_
    rw [definition]
    exact NameSet.mem_ofList.mpr member
  · cases isPath

/-- A property of expressions that their simplification keeps: literals have it, it passes from a
name to what the name stands for, and from a path to its elements.
-/
structure Expr.Simplifiable (vars : VarTable) (holds : Expr → Prop)
    : Prop extends Inherited holds where
  literal : ∀ value, holds (.literal value)
  resolved : ∀ id, holds (.var id) → holds (.var (vars.resolve id))
  element
    : ∀ id hops elements,
        holds (.var id)
        → pathOf? vars id = some (hops, elements)
        → ∀ element ∈ elements, holds (.var element)

/-- Names lead to what definitions depend on. -/
theorem Expr.simplifiable_within (ordered : vars.Ordered order) (closed : vars.Closed allowed)
    : Simplifiable vars (Within allowed) := { inherited_within with
  literal := fun _ => within_literal
  resolved := fun _ within => within_var.mpr (closed.resolve ordered (within_var.mp within))
  element := fun _ _ _ within isPath element member =>
    within_var.mpr (closed.path ordered (within_var.mp within) isPath element member)
}

namespace Expr.Simplifiable

variable {holds : Expr → Prop} {part : Expr}

/-- The arguments of a count may be the elements of a path in place of the path. -/
theorem countArgs (simplifiable : Simplifiable vars holds) {args : List Expr}
    (all : ∀ arg ∈ args, holds arg)
    : ∀ arg ∈ countArgs vars args, holds arg := by
  unfold Plan.countArgs
  split
  · rename_i id
    split
    · rename_i first found
      obtain ⟨⟨hops, elements⟩, isPath, isFirst⟩ := Option.bind_eq_some_iff.mp found
      have member := List.mem_of_mem_head? isFirst
      simpa using simplifiable.element id hops elements (all _ (by simp)) isPath first member
    · exact all
  · exact all

theorem simplifyFunction (simplifiable : Simplifiable vars holds) (has : holds part)
    : Modality.ofOk.Holds holds (simplifyFunction vars part) := by
  have known (name : String) (args : List Expr) (each : ∀ arg ∈ args, holds arg)
      : Modality.ofOk.Holds holds (knownCall name args) := by
    unfold knownCall
    split
    · exact Modality.ofOk.pure (simplifiable.call.mpr each)
    · exact nofun
  unfold Plan.simplifyFunction
  split
  · rename_i name args
    have each := simplifiable.call.mp has
    unfold simplifyCall
    split
    · unfold simplifyId
      split
      · split
        · exact Modality.ofOk.pure (each _ (by simp))
        · exact nofun
      · exact nofun
    · split
      · split
        · exact Modality.ofOk.pure (simplifiable.literal _)
        · exact known name args each
      · exact known name args each
  · exact Modality.ofOk.pure
      (simplifiable.aggregate.mpr (simplifiable.countArgs (simplifiable.aggregate.mp has)))
  · exact Modality.ofOk.pure has

theorem simplifyProperty (simplifiable : Simplifiable vars holds) (has : holds part)
    : holds (simplifyProperty vars part) := by
  unfold Plan.simplifyProperty
  split
  · rename_i id key
    have named := simplifiable.property.mp has
    refine simplifiable.property.mpr ?_
    split
    · exact simplifiable.resolved id named
    · exact named
  · exact has

/-- A variable in place of another name of it is what that name stands for. -/
theorem resolveName (simplifiable : Simplifiable vars holds) (has : holds part)
    : holds (resolveName vars part) := by
  unfold Plan.resolveName
  split
  · exact simplifiable.resolved _ has
  · exact has

end Expr.Simplifiable

namespace Expr

/-- The value of an entry is smaller than the entry. -/
theorem sizeOf_value_lt (entry : String × Expr) : sizeOf entry.2 < sizeOf entry := by
  cases entry
  rw [Prod.mk.sizeOf_spec]
  exact Nat.lt_add_of_pos_left (Nat.lt_of_lt_of_le Nat.one_pos (Nat.le_add_right 1 _))

/-- Constants are those whose items are. -/
theorem allConstant_iff {exprs : List Expr}
    : allConstant exprs = true ↔ ∀ expr ∈ exprs, expr.isConstant = true := by
  induction exprs with
  | nil => simp [allConstant]
  | cons expr rest ih => simp [allConstant, ih]

/-- And those whose entries are. -/
theorem allConstantEntries_iff {entries : List (String × Expr)}
    : allConstantEntries entries = true ↔ ∀ entry ∈ entries, entry.2.isConstant = true := by
  induction entries with
  | nil => simp [allConstantEntries]
  | cons entry rest ih => simp [allConstantEntries, ih]

/-- Induction over a constant: a literal, or a list or map of constants. -/
theorem constant_induction {motive : Expr → Prop} (literal : ∀ value, motive (.literal value))
    (list : ∀ items, (∀ item ∈ items, motive item) → motive (.list items))
    (map : ∀ entries, (∀ entry ∈ entries, motive entry.2) → motive (.map entries))
    : ∀ {expr : Expr}, expr.isConstant = true → motive expr
  | .literal value, _ => literal value
  | .list items, constant => list items fun item member =>
      have := List.sizeOf_lt_of_mem member
      constant_induction literal list map (allConstant_iff.mp constant item member)
  | .map entries, constant => map entries fun entry member =>
      have := List.sizeOf_lt_of_mem member
      have := sizeOf_value_lt entry
      constant_induction literal list map (allConstantEntries_iff.mp constant entry member)
termination_by expr => sizeOf expr

/-- A constant has what literals have. -/
theorem Inherited.of_isConstant {holds : Expr → Prop} (inherited : Inherited holds)
    (literal : ∀ value, holds (.literal value)) {expr : Expr} (constant : expr.isConstant = true)
    : holds expr := by
  refine constant_induction (motive := holds) literal ?_ ?_ constant
  · exact fun _ => inherited.list.mpr
  · exact fun _ => inherited.map.mpr

/-- A constant refers to no variable. -/
theorem within_of_isConstant {expr : Expr} (constant : expr.isConstant = true)
    : expr.Within allowed :=
  inherited_within.of_isConstant (fun _ => within_literal) constant

end Expr

theorem constant?_eq_some {id : VarId} {value : Expr} {scope : Nat}
    (found : constant? vars id = some (value, scope))
    : ∃ var type,
        vars.get? id = some var
        ∧ var.definition = .projected value type
        ∧ var.scope = scope
        ∧ value.isConstant := by
  simp only [constant?, Option.bind_eq_bind, Option.bind_eq_some_iff] at found
  obtain ⟨var, present, expr, projects, found⟩ := found
  split at found
  · rename_i constant
    obtain ⟨rfl, rfl⟩ := Prod.mk.inj (Option.some.inj found)
    cases kind : var.definition with
    | projected other type =>
        rw [kind] at projects
        obtain rfl := Option.some.inj projects
        exact ⟨var, type, present, kind, rfl, constant⟩
    | _ => simp [kind, Definition.projection?] at projects
  · cases found

/-- A name of a node is no constant. -/
theorem VarTable.StandsForNode.constant?_eq_none {target : VarId}
    (stands : vars.StandsForNode target)
    : constant? vars target = none := by
  cases found : constant? vars target with
  | none => rfl
  | some constant =>
      obtain ⟨var, type, present, definition, -, isConstant⟩ := constant?_eq_some found
      have defined := VarTable.definition?_of_get? present
      have last : vars.target? target = none := by
        rw [VarTable.target?, defined, definition]
        cases projects : constant.1 <;> simp_all [Definition.target?, Expr.isConstant]
      obtain ⟨node, isNode⟩ := stands
      rw [VarTable.Ordered.resolve_of_target_none last, VarTable.node?_eq_some, defined,
        definition] at isNode
      cases isNode

/-- A constant in place of a variable has what literals have, and an entry what its map has. -/
theorem Expr.Inherited.inlineConstant {holds : Expr → Prop} (inherited : Inherited holds)
    (literal : ∀ value, holds (.literal value)) (scope : Nat) {part : Expr} (has : holds part)
    : holds (inlineConstant vars scope part) := by
  unfold Plan.inlineConstant
  split
  · split
    · rename_i value declaredIn found
      obtain ⟨_, _, _, _, _, constant⟩ := constant?_eq_some found
      split
      · exact inherited.of_isConstant literal constant
      · exact has
    · exact has
  · rename_i entries key
    have each := inherited.map.mp (inherited.property.mp has)
    cases found : entries.lookup key with
    | none => exact literal .null
    | some value => exact each (key, value) (mem_of_lookup found)
  · exact has

/-- A constant in place of a variable refers to nothing, and an entry to what its map refers to. -/
theorem inlineConstant_within (scope : Nat) {part : Expr} (within : part.Within allowed)
    : (inlineConstant vars scope part).Within allowed :=
  Expr.inherited_within.inlineConstant (fun _ => Expr.within_literal) scope within

theorem simplifyFunctions_within
    : RewritesWithin Modality.ofOk fun vars _ expr => expr.mapPartsM (simplifyFunction vars) :=
  fun _ expr ordered closed within =>
    expr.mapPartsM_within Modality.ofOk
      (fun _ => (Expr.simplifiable_within ordered closed).simplifyFunction) within

theorem simplifyProperties_within
    : RewritesWithin Modality.ofId fun vars _ expr =>
      pure (expr.mapParts (simplifyProperty vars)) :=
  fun _ expr ordered closed within =>
    expr.mapPartsM_within Modality.ofId
      (fun _ => (Expr.simplifiable_within ordered closed).simplifyProperty) within

theorem inlineConstants_within
    : RewritesWithin Modality.ofId fun vars site expr =>
        pure (if site.unnamedInWith then expr else expr.mapParts
          (inlineConstant vars site.scope)) := by
  intro vars order allowed site expr _ _ within
  refine Modality.ofId.pure ?_
  split
  · exact within
  · exact expr.mapPartsM_within Modality.ofId
      (fun part within => inlineConstant_within site.scope within) within

/-- A name of a node stays where constants are put in. -/
theorem inlineConstants_names {target : VarId} (site : Site) (stands : vars.StandsForNode target)
    : (if site.unnamedInWith then Expr.var target
        else (Expr.var target).mapParts (inlineConstant vars site.scope))
      = .var target := by
  split
  · rfl
  · change inlineConstant vars site.scope (.var target) = .var target
    simp [inlineConstant, stands.constant?_eq_none]

theorem resolveNames_within
    : RewritesWithin Modality.ofId fun vars _ expr => pure (expr.mapParts (resolveName vars)) :=
  fun _ expr ordered closed within =>
    expr.mapPartsM_within Modality.ofId
      (fun _ => (Expr.simplifiable_within ordered closed).resolveName) within

end Parts

namespace Draft

variable {draft later : Draft} {declared : List VarId}

/-- Rewriting without failures keeps the table of a draft coherent. -/
theorem mapExprs_coherent {f : VarTable → Site → Expr → Expr}
    (within : RewritesWithin Modality.ofId fun vars site expr => pure (f vars site expr))
    (names
      : ∀ {vars target} (site : Site),
          vars.StandsForNode target
          → f vars site (.var target) = .var target
            ∨ f vars site (.var target) = .var (vars.resolve target))
    (coherent : draft.vars.Coherent declared)
    : (draft.mapExprs f).vars.Coherent declared :=
  Draft.mapExprsM_coherent Modality.ofId (fun _ => trivial) within names coherent

theorem simplifyFunctions_coherent (coherent : draft.vars.Coherent declared)
    (succeeded : simplifyFunctions draft = .ok later)
    : later.vars.Coherent declared := by
  refine Draft.mapExprsM_coherent Modality.ofOk Modality.ofOk_any
    simplifyFunctions_within ?_ coherent
    later succeeded
  intro vars target _ _ changed same
  exact .inl (Except.ok.inj same).symm

theorem simplifyProperties_coherent (coherent : draft.vars.Coherent declared)
    : (simplifyProperties draft).vars.Coherent declared :=
  mapExprs_coherent simplifyProperties_within (fun _ _ => .inl rfl) coherent

theorem resolveNames_coherent (coherent : draft.vars.Coherent declared)
    : (resolveNames draft).vars.Coherent declared :=
  mapExprs_coherent resolveNames_within (fun _ _ => .inr rfl) coherent

theorem standIn_coherent {vars : VarTable} {id : VarId} (coherent : vars.Coherent declared)
    (unmentioned : vars.Unmentioned id)
    : (standIn vars id).Coherent declared := by
  unfold standIn
  split
  · exact coherent.refresh id
  · rename_i expr type _ found
    obtain ⟨var, present, definition⟩ := VarTable.definition?_eq_some.mp found
    exact coherent.literal unmentioned present (by rw [definition]; rfl) (.integer 1) type
  · exact coherent.refresh id

/-- A constant is dropped only if no definition refers to it. -/
theorem dropConstant_coherent (source : Nat) (coherent : draft.vars.Coherent declared) (id : VarId)
    : (dropConstant source draft id).vars.Coherent declared := by
  obtain ⟨_, -, ordered⟩ := coherent.inOrder
  unfold dropConstant
  split
  · exact coherent
  · split
    · exact coherent
    · rename_i unread
      have none : draft.vars.dependents id = [] := by
        simp only [isRead, Bool.or_eq_true, Bool.not_eq_true', not_or, Bool.not_eq_false] at unread
        exact List.isEmpty_iff.mp unread.1.2
      have unmentioned := ordered.unmentioned_of_dependents none
      split
      · exact standIn_coherent coherent unmentioned
      · exact coherent.remove unmentioned

/-- Dropping constants keeps the table coherent, by induction over the subqueries and over the
constants of each.
-/
theorem dropConstants_coherent (coherent : draft.vars.Coherent declared)
    : (dropConstants draft).vars.Coherent declared := by
  have each (source : Nat) (ids : List VarId) {draft : Draft}
    (coherent : draft.vars.Coherent declared)
      : (ids.foldl (dropConstant source) draft).vars.Coherent declared := by
    induction ids generalizing draft with
    | nil => exact coherent
    | cons id rest ih => exact ih (dropConstant_coherent source coherent id)
  unfold dropConstants
  generalize List.range draft.tree.subqueries.length = sources
  induction sources generalizing draft with
  | nil => exact coherent
  | cons source rest ih =>
      refine ih ?_
      unfold dropConstantsOf
      split
      · exact coherent
      · exact each source _ coherent

theorem inlineConstants_coherent (coherent : draft.vars.Coherent declared)
    : (inlineConstants draft).vars.Coherent declared :=
  dropConstants_coherent
    (mapExprs_coherent inlineConstants_within
      (fun site stands => .inl (inlineConstants_names site stands))
      coherent)

/-- Noting that a property is read changes at most the note in one definition. -/
theorem markRead_cases (vars : VarTable) (read : PropertyRead)
    : markRead vars read = vars
      ∨ ∃ id var definition,
          vars.get? id = some var
          ∧ definition.outline = var.definition.outline
          ∧ definition.restriction? = var.definition.restriction?
          ∧ markRead vars read = vars.redefine id definition := by
  unfold markRead
  dsimp only
  split
  · rename_i definition required
    obtain ⟨old, found, required⟩ := Option.bind_eq_some_iff.mp required
    obtain ⟨var, present, rfl⟩ := VarTable.definition?_eq_some.mp found
    refine .inr ⟨vars.resolve read.base, var, definition, present, ?_⟩
    cases kind : var.definition <;> rw [kind] at required <;>
      simp only [Definition.require?, Option.some.injEq, reduceCtorEq] at required
    all_goals
      subst required
      exact ⟨rfl, rfl, rfl⟩
  · exact .inl rfl

/-- Noting the properties that are read changes no definition in its outline. -/
theorem markProperties_coherent (coherent : draft.vars.Coherent declared)
    : (markProperties draft).vars.Coherent declared := by
  have marked (reads : List PropertyRead) {vars : VarTable} (coherent : vars.Coherent declared)
      : (reads.foldl markRead vars).Coherent declared := by
    induction reads generalizing vars with
    | nil => exact coherent
    | cons read rest ih =>
        refine ih ?_
        obtain same | ⟨id, var, definition, present, outline, restriction, same⟩ :=
          markRead_cases vars read
        · rwa [same]
        · rw [same]
          exact coherent.redefine present outline restriction
  exact marked _ coherent

/-- Finding the exports leaves the variables as they are. -/
theorem findExports_vars (succeeded : findExports draft = .ok later) : later.vars = draft.vars := by
  have keeps : Modality.ofOk.Holds (fun later => later.vars = draft.vars) (findExports draft) :=
    Modality.ofOk.bind (Modality.ofOk_any _) fun _ _ => Modality.ofOk.pure rfl
  exact keeps later succeeded

end Draft

end CypherSql.Plan
