import CypherSql.Plan.Resolve
import CypherSql.Proofs.Outcome
import CypherSql.Proofs.Variables.Lookup

/-! Which variables an expression refers to: as resolved from its written form, in the conditions it
is joined from, and in the conditions it joins.
-/

namespace CypherSql.Plan

namespace Expr

/-- The expression has others inside it. -/
def isCompound : Expr → Bool
  | .property _ _ | .unary _ _ | .binary _ _ _ => true
  | .list _ | .map _ | .aggregate _ _ _ | .call _ _ => true
  | _ => false

/-- A property that an expression with others inside it has exactly if all of these have it. -/
structure Inherited (holds : Expr → Prop) : Prop where
  property : ∀ {base key}, holds (.property base key) ↔ holds base
  unary : ∀ {op operand}, holds (.unary op operand) ↔ holds operand
  binary : ∀ {op left right}, holds (.binary op left right) ↔ holds left ∧ holds right
  list : ∀ {items}, holds (.list items) ↔ ∀ item ∈ items, holds item
  map : ∀ {entries}, holds (.map entries) ↔ ∀ entry ∈ entries, holds entry.2
  aggregate
    : ∀ {function distinct args},
        holds (.aggregate function distinct args) ↔ ∀ arg ∈ args, holds arg
  call : ∀ {name args}, holds (.call name args) ↔ ∀ arg ∈ args, holds arg

theorem mem_partsAll {items : List Expr} {part : Expr}
    : part ∈ partsAll items ↔ ∃ item ∈ items, part ∈ item.parts := by
  induction items with
  | nil => simp [partsAll]
  | cons item rest ih => simp [partsAll, ih]

theorem mem_partsEntries {entries : List (String × Expr)} {part : Expr}
    : part ∈ partsEntries entries ↔ ∃ entry ∈ entries, part ∈ entry.2.parts := by
  induction entries with
  | nil => simp [partsEntries]
  | cons entry rest ih =>
      obtain ⟨key, value⟩ := entry
      simp [partsEntries, ih]

section Parts

variable {test : Expr → Prop}

theorem forall_mem_partsAll {items : List Expr}
    : (∀ part ∈ partsAll items, test part) ↔ ∀ item ∈ items, ∀ part ∈ item.parts, test part := by
  simp only [mem_partsAll]
  exact ⟨fun all item listed part inside => all part ⟨item, listed, inside⟩,
    fun all part ⟨item, listed, inside⟩ => all item listed part inside⟩

theorem forall_mem_partsEntries {entries : List (String × Expr)}
    : (∀ part ∈ partsEntries entries, test part)
      ↔ ∀ entry ∈ entries, ∀ part ∈ entry.2.parts, test part := by
  simp only [mem_partsEntries]
  exact ⟨fun all entry listed part inside => all part ⟨entry, listed, inside⟩,
    fun all part ⟨entry, listed, inside⟩ => all entry listed part inside⟩

/-- What is said of all parts is inherited if nothing is said of those with others inside. -/
theorem inherited_parts (open' : ∀ part, part.isCompound → test part)
    : Inherited fun expr => ∀ part ∈ expr.parts, test part := by
  have inside {expr : Expr} {parts : List Expr} (compound : expr.isCompound)
      : (∀ part ∈ expr :: parts, test part) ↔ ∀ part ∈ parts, test part :=
    List.forall_mem_cons.trans (and_iff_right (open' expr compound))
  exact {
    property := inside rfl
    unary := inside rfl
    binary := (inside rfl).trans List.forall_mem_append
    list := (inside rfl).trans forall_mem_partsAll
    map := (inside rfl).trans forall_mem_partsEntries
    aggregate := (inside rfl).trans forall_mem_partsAll
    call := (inside rfl).trans forall_mem_partsAll
  }

end Parts

/-- An expression has what all conditions that it joins have, by induction over its shape. -/
theorem Inherited.conjuncts {holds : Expr → Prop} (inherited : Inherited holds) {expr : Expr}
    : (∀ condition ∈ expr.conjuncts, holds condition) ↔ holds expr := by
  fun_induction Expr.conjuncts expr with
  | case1 left right ihLeft ihRight =>
      rw [List.forall_mem_append, ihLeft, ihRight, inherited.binary]
  | case2 expr _ => exact List.forall_mem_singleton

/-- The condition that several are joined to has what all of them have. -/
theorem Inherited.conjoin {holds : Expr → Prop} (inherited : Inherited holds)
    {conditions : List Expr} {joined : Expr} (all : ∀ condition ∈ conditions, holds condition)
    (result : conjoin conditions = some joined)
    : holds joined := by
  have folded {first : Expr} {rest : List Expr} (has : holds first)
      (others : ∀ condition ∈ rest, holds condition)
      : holds (rest.foldl (.binary .and) first) := by
    induction rest generalizing first with
    | nil => exact has
    | cons next rest ih =>
        obtain ⟨own, later⟩ := List.forall_mem_cons.mp others
        exact ih (inherited.binary.mpr ⟨has, own⟩) later
  cases conditions with
  | nil => cases result
  | cons first rest =>
      obtain rfl := Option.some.inj result
      exact folded (all first (by simp)) fun condition listed => all condition (by simp [listed])

/-- A part is no column, and the variable that it may be is an allowed one. -/
def PartOver (allowed : VarId → Prop) : Expr → Prop
  | .var id => allowed id
  | .column _ _ => False
  | _ => True

/-- An expression refers to allowed variables only, and to no column of a table. -/
def Over (allowed : VarId → Prop) (expr : Expr) : Prop :=
  ∀ part ∈ expr.parts, part.PartOver allowed

/-- All expressions of a list refer to allowed variables only. -/
def AllOver (allowed : VarId → Prop) (exprs : List Expr) : Prop :=
  ∀ expr ∈ exprs, expr.Over allowed

variable {allowed : VarId → Prop}

theorem inherited_over : Inherited (Over allowed) :=
  inherited_parts fun part compound => by cases part <;> trivial

@[simp]
theorem over_literal {value : Literal} : (Expr.literal value).Over allowed := by
  simp [Over, parts, PartOver]

@[simp]
theorem over_star : Expr.star.Over allowed := by
  simp [Over, parts, PartOver]

@[simp]
theorem over_parameter {name : String} : (Expr.parameter name).Over allowed := by
  simp [Over, parts, PartOver]

@[simp]
theorem over_var {id : VarId} : (Expr.var id).Over allowed ↔ allowed id := by
  simp [Over, parts, PartOver]

@[simp]
theorem over_property {base : Expr} {key : String}
    : (Expr.property base key).Over allowed ↔ base.Over allowed :=
  inherited_over.property

@[simp]
theorem over_unary {op : UnaryOp} {operand : Expr}
    : (Expr.unary op operand).Over allowed ↔ operand.Over allowed :=
  inherited_over.unary

@[simp]
theorem over_binary {op : BinaryOp} {left right : Expr}
    : (Expr.binary op left right).Over allowed ↔ left.Over allowed ∧ right.Over allowed :=
  inherited_over.binary

@[simp]
theorem over_list {items : List Expr}
    : (Expr.list items).Over allowed ↔ AllOver allowed items :=
  inherited_over.list

@[simp]
theorem over_map {entries : List (String × Expr)}
    : (Expr.map entries).Over allowed ↔ AllOver allowed (entries.map (·.2)) :=
  inherited_over.map.trans List.forall_mem_map.symm

@[simp]
theorem over_aggregate {function : Aggregate} {distinct : Bool} {args : List Expr}
    : (Expr.aggregate function distinct args).Over allowed ↔ AllOver allowed args :=
  inherited_over.aggregate

@[simp]
theorem over_call {name : String} {args : List Expr}
    : (Expr.call name args).Over allowed ↔ AllOver allowed args :=
  inherited_over.call

@[simp]
theorem allOver_nil : AllOver allowed [] := by
  simp [AllOver]

@[simp]
theorem allOver_cons {expr : Expr} {rest : List Expr}
    : AllOver allowed (expr :: rest) ↔ expr.Over allowed ∧ AllOver allowed rest := by
  simp [AllOver]

@[simp]
theorem allOver_append {left right : List Expr}
    : AllOver allowed (left ++ right) ↔ AllOver allowed left ∧ AllOver allowed right := by
  simp [AllOver, or_imp, forall_and]

theorem Over.mono {other : VarId → Prop} {expr : Expr} (isOver : expr.Over allowed)
    (weaken : ∀ id, allowed id → other id)
    : expr.Over other := by
  intro part inside
  have within := isOver part inside
  cases part with
  | var id => exact weaken id within
  | column id name => exact within
  | _ => trivial

theorem AllOver.mono {other : VarId → Prop} {exprs : List Expr} (isOver : AllOver allowed exprs)
    (weaken : ∀ id, allowed id → other id)
    : AllOver other exprs :=
  fun expr member => (isOver expr member).mono weaken

/-- The references of an expression are allowed ones. -/
theorem Over.of_mem_references {expr : Expr} (isOver : expr.Over allowed) {id : VarId}
    (member : id ∈ expr.references)
    : allowed id := by
  obtain ⟨part, inside, refers⟩ := mem_references.mp member
  have within := isOver part inside
  cases part with
  | var other => simpa [reference?] using (Option.some.inj refers) ▸ within
  | column other name => exact within.elim
  | _ => simp [reference?] at refers

/-- The conditions that an expression joins refer to what it refers to. -/
theorem Over.conjuncts {expr : Expr} (isOver : expr.Over allowed)
    : AllOver allowed expr.conjuncts :=
  inherited_over.conjuncts.mpr isOver

/-- A joined condition refers to what its parts refer to. -/
theorem over_of_conjoin {conditions : List Expr} {joined : Expr}
    (isOver : AllOver allowed conditions) (result : conjoin conditions = some joined)
    : joined.Over allowed :=
  inherited_over.conjoin isOver result

end Expr

section Resolved

variable {holds : Expr → Prop} {step : Step} {lookup : String → Option VarId}

/-- A call has what its arguments have. -/
theorem Expr.Inherited.resolveCall (inherited : Inherited holds) {name : String} {distinct : Bool}
    {args : List Expr} (all : ∀ arg ∈ args, holds arg)
    : Safely holds (resolveCall step name distinct args) := by
  unfold Plan.resolveCall
  split
  · simpa using inherited.aggregate.mpr all
  · split
    · simp [Cause.category]
    · split
      · simp [Cause.category]
      · simpa using inherited.call.mpr all

/-- An inherited property that literals have, and the variables that names stand for. -/
structure Expr.HeldByNames (holds : Expr → Prop) (lookup : String → Option VarId) : Prop
    extends Inherited holds where
  literal : ∀ value, holds (.literal value)
  star : holds .star
  known : ∀ name id, lookup name = some id → holds (.var id)

namespace Expr.HeldByNames

mutual

/-- A resolved expression has what literals and the variables that its names stand for have, if its
parameters do, by induction over the written expression.
-/
theorem resolveExpr (held : HeldByNames holds lookup)
    : ∀ expr : Cypher.Expr,
        (∀ name, .parameter name ∈ expr.parts → holds (.parameter name))
        → Safely holds (resolveExpr step lookup expr)
  | .literal value, _ => by simpa [Plan.resolveExpr] using held.literal _
  | .var name, _ => by
      simp only [Plan.resolveExpr]
      cases found : lookup name with
      | none => simp [Cause.category]
      | some id => simpa using held.known name id found
  | .parameter name, parameters => by
      simpa [Plan.resolveExpr] using parameters name List.mem_cons_self
  | .list items, parameters => by
      simp only [Plan.resolveExpr]
      exact (held.resolveAll items fun name inside => parameters name (.tail _ inside)).bind
        fun result all => by simpa using held.list.mpr all
  | .map entries, parameters => by
      simp only [Plan.resolveExpr]
      exact (held.resolveEntries entries fun name inside => parameters name (.tail _ inside)).bind
        fun result all => by simpa using held.map.mpr all
  | .property base key, parameters => by
      simp only [Plan.resolveExpr]
      exact (held.resolveExpr base fun name inside => parameters name (.tail _ inside)).bind
        fun result has => by simpa using held.property.mpr has
  | .unary op operand, parameters => by
      simp only [Plan.resolveExpr]
      exact (held.resolveExpr operand fun name inside => parameters name (.tail _ inside)).bind
        fun result has => by simpa using held.unary.mpr has
  | .binary op left right, parameters => by
      simp only [Plan.resolveExpr]
      have first name inside := parameters name (.tail _ (List.mem_append_left _ inside))
      have second name inside := parameters name (.tail _ (List.mem_append_right _ inside))
      exact (held.resolveExpr left first).bind fun left hasLeft =>
        (held.resolveExpr right second).bind fun right hasRight => by
          simpa using held.binary.mpr ⟨hasLeft, hasRight⟩
  | .call name distinct args, parameters => by
      simp only [Plan.resolveExpr]
      exact (held.resolveAll args fun name inside => parameters name (.tail _ inside)).bind
        fun result all => held.toInherited.resolveCall all
  | .star, _ => by simpa [Plan.resolveExpr] using held.star

/-- The same for several expressions. -/
theorem resolveAll (held : HeldByNames holds lookup)
    : ∀ exprs : List Cypher.Expr,
        (∀ name, .parameter name ∈ Cypher.partsEach exprs → holds (.parameter name))
        → Safely (fun result => ∀ expr ∈ result, holds expr) (resolveAll step lookup exprs)
  | [], _ => by simp [Plan.resolveAll]
  | expr :: rest, parameters => by
      simp only [Plan.resolveAll]
      have first name inside := parameters name (List.mem_append_left _ inside)
      have others name inside := parameters name (List.mem_append_right _ inside)
      exact (held.resolveExpr expr first).bind fun first has =>
        (held.resolveAll rest others).bind fun others all =>
          Safely.pure_iff.mpr (List.forall_mem_cons.mpr ⟨has, all⟩)

/-- The same for the values of several entries. -/
theorem resolveEntries (held : HeldByNames holds lookup)
    : ∀ entries : List (String × Cypher.Expr),
        (∀ name, .parameter name ∈ Cypher.partsEntries entries → holds (.parameter name))
        → Safely (fun result => ∀ entry ∈ result, holds entry.2)
            (resolveEntries step lookup entries)
  | [], _ => by simp [Plan.resolveEntries]
  | (key, expr) :: rest, parameters => by
      simp only [Plan.resolveEntries]
      have first name inside := parameters name (List.mem_append_left _ inside)
      have others name inside := parameters name (List.mem_append_right _ inside)
      exact (held.resolveExpr expr first).bind fun first has =>
        (held.resolveEntries rest others).bind fun others all =>
          Safely.pure_iff.mpr (List.forall_mem_cons.mpr ⟨has, all⟩)

end

end Expr.HeldByNames

/-- A resolved expression refers to variables that its names stand for. -/
theorem resolveExpr_over {allowed : VarId → Prop}
    (known : ∀ name id, lookup name = some id → allowed id) (expr : Cypher.Expr)
    : Safely (Expr.Over allowed) (resolveExpr step lookup expr) :=
  have held : Expr.HeldByNames (Expr.Over allowed) lookup := { Expr.inherited_over with
    literal := fun _ => Expr.over_literal
    star := Expr.over_star
    known := fun name id found => Expr.over_var.mpr (known name id found)
  }
  held.resolveExpr expr fun _ _ => Expr.over_parameter

end Resolved

end CypherSql.Plan
