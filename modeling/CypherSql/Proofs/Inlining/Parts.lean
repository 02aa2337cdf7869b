import CypherSql.Proofs.Passes.Definitions

/-! Expressions in which constants are put in place of variables. No part of the result is one that
would be replaced again, and an expression without such parts is left as it is.
-/

namespace CypherSql.Plan

namespace Expr

section Parts

variable (f : Expr → Expr)

/-- Several expressions are replaced one by one. -/
theorem mapAllParts_eq (items : List Expr)
    : Id.run (mapAllPartsM (fun part => pure (f part)) items) = items.map (mapParts f) := by
  induction items with
  | nil => rfl
  | cons item rest ih => exact congrArg (item.mapParts f :: ·) ih

/-- So are the values of several entries. -/
theorem mapEntryParts_eq (entries : List (String × Expr))
    : Id.run (mapEntryPartsM (fun part => pure (f part)) entries)
      = entries.map fun entry => (entry.1, entry.2.mapParts f) := by
  induction entries with
  | nil => rfl
  | cons entry rest ih => exact congrArg ((entry.1, entry.2.mapParts f) :: ·) ih

theorem mapParts_var (id : VarId) : (Expr.var id).mapParts f = f (.var id) :=
  rfl

theorem mapParts_property (base : Expr) (key : String)
    : (Expr.property base key).mapParts f = f (.property (base.mapParts f) key) :=
  rfl

theorem mapParts_unary (op : UnaryOp) (operand : Expr)
    : (Expr.unary op operand).mapParts f = f (.unary op (operand.mapParts f)) :=
  rfl

theorem mapParts_binary (op : BinaryOp) (left right : Expr)
    : (Expr.binary op left right).mapParts f
      = f (.binary op (left.mapParts f) (right.mapParts f)) :=
  rfl

theorem mapParts_list (items : List Expr)
    : (Expr.list items).mapParts f = f (.list (items.map (mapParts f))) :=
  congrArg (fun items => f (.list items)) (mapAllParts_eq f items)

theorem mapParts_map (entries : List (String × Expr))
    : (Expr.map entries).mapParts f
      = f (.map (entries.map fun entry => (entry.1, entry.2.mapParts f))) :=
  congrArg (fun entries => f (.map entries)) (mapEntryParts_eq f entries)

theorem mapParts_aggregate (function : Aggregate) (distinct : Bool) (args : List Expr)
    : (Expr.aggregate function distinct args).mapParts f
      = f (.aggregate function distinct (args.map (mapParts f))) :=
  congrArg (fun args => f (.aggregate function distinct args)) (mapAllParts_eq f args)

theorem mapParts_call (name : String) (args : List Expr)
    : (Expr.call name args).mapParts f = f (.call name (args.map (mapParts f))) :=
  congrArg (fun args => f (.call name args)) (mapAllParts_eq f args)

/-- An expression is one of its parts. -/
theorem self_mem_parts (expr : Expr) : expr ∈ expr.parts := by
  cases expr <;> simp [parts]

end Parts

section Kept

variable {f : Expr → Expr}

mutual

/-- An expression stays as it is where each of its parts does, by induction over the expression. -/
theorem mapParts_eq_self
    : ∀ expr : Expr, (∀ part ∈ expr.parts, f part = part) → expr.mapParts f = expr
  | .property base key, kept => by
      rw [mapParts_property, base.mapParts_eq_self fun part inside =>
        kept part (by simp [parts, inside])]
      exact kept _ (self_mem_parts _)
  | .unary op operand, kept => by
      rw [mapParts_unary, operand.mapParts_eq_self fun part inside =>
        kept part (by simp [parts, inside])]
      exact kept _ (self_mem_parts _)
  | .binary op left right, kept => by
      rw [mapParts_binary, left.mapParts_eq_self fun part inside =>
        kept part (by simp [parts, inside]), right.mapParts_eq_self fun part inside =>
          kept part (by simp [parts, inside])]
      exact kept _ (self_mem_parts _)
  | .list items, kept => by
      rw [mapParts_list, mapAllParts_eq_self fun part inside => kept part (by simp [parts, inside])]
      exact kept _ (self_mem_parts _)
  | .map entries, kept => by
      rw [mapParts_map, mapEntryParts_eq_self fun part inside =>
        kept part (by simp [parts, inside])]
      exact kept _ (self_mem_parts _)
  | .aggregate function distinct args, kept => by
      rw [mapParts_aggregate,
        mapAllParts_eq_self fun part inside => kept part (by simp [parts, inside])]
      exact kept _ (self_mem_parts _)
  | .call name args, kept => by
      rw [mapParts_call, mapAllParts_eq_self fun part inside => kept part (by simp [parts, inside])]
      exact kept _ (self_mem_parts _)
  | .literal _, kept => kept _ (self_mem_parts _)
  | .star, kept => kept _ (self_mem_parts _)
  | .parameter _, kept => kept _ (self_mem_parts _)
  | .var _, kept => kept _ (self_mem_parts _)
  | .column _ _, kept => kept _ (self_mem_parts _)

/-- The same for several expressions. -/
theorem mapAllParts_eq_self
    : ∀ {exprs : List Expr},
        (∀ part ∈ partsAll exprs, f part = part) → exprs.map (mapParts f) = exprs
  | [], _ => rfl
  | expr :: rest, kept => by
      rw [List.map_cons, expr.mapParts_eq_self fun part inside =>
        kept part (by simp [partsAll, inside]), mapAllParts_eq_self fun part inside =>
          kept part (by simp [partsAll, inside])]

/-- The same for the values of several entries. -/
theorem mapEntryParts_eq_self
    : ∀ {entries : List (String × Expr)},
        (∀ part ∈ partsEntries entries, f part = part)
        → entries.map (fun entry => (entry.1, entry.2.mapParts f)) = entries
  | [], _ => rfl
  | (key, expr) :: rest, kept => by
      rw [List.map_cons,
        expr.mapParts_eq_self fun part inside => kept part (by simp [partsEntries, inside]),
        mapEntryParts_eq_self fun part inside => kept part (by simp [partsEntries, inside])]

end

end Kept

mutual

/-- All parts of a constant are constants, by induction over the expression. -/
theorem isConstant_of_mem_parts
    : ∀ {expr part : Expr}, expr.isConstant = true → part ∈ expr.parts → part.isConstant = true
  | .literal _, part, constant, inside => by
      obtain rfl := List.mem_singleton.mp inside
      exact constant
  | .list items, part, constant, inside => by
      rcases List.mem_cons.mp inside with rfl | inside
      · exact constant
      · exact isConstant_of_mem_partsAll (by simpa [isConstant] using constant) inside
  | .map entries, part, constant, inside => by
      rcases List.mem_cons.mp inside with rfl | inside
      · exact constant
      · exact isConstant_of_mem_partsEntries (by simpa [isConstant] using constant) inside

/-- The same for several expressions. -/
theorem isConstant_of_mem_partsAll
    : ∀ {exprs : List Expr} {part : Expr},
        allConstant exprs = true → part ∈ partsAll exprs → part.isConstant = true
  | expr :: rest, part, constant, inside => by
      obtain ⟨first, others⟩ := Bool.and_eq_true_iff.mp constant
      rcases List.mem_append.mp inside with inside | inside
      · exact isConstant_of_mem_parts first inside
      · exact isConstant_of_mem_partsAll others inside

/-- The same for the values of several entries. -/
theorem isConstant_of_mem_partsEntries
    : ∀ {entries : List (String × Expr)} {part : Expr},
        allConstantEntries entries = true → part ∈ partsEntries entries → part.isConstant = true
  | (_, expr) :: rest, part, constant, inside => by
      obtain ⟨first, others⟩ := Bool.and_eq_true_iff.mp constant
      rcases List.mem_append.mp inside with inside | inside
      · exact isConstant_of_mem_parts first inside
      · exact isConstant_of_mem_partsEntries others inside

end

/-- A constant stays as it is where literals, lists and maps do. -/
theorem mapParts_of_isConstant {f : Expr → Expr} {expr : Expr} (constant : expr.isConstant = true)
    (kept : ∀ part : Expr, part.isConstant = true → f part = part)
    : expr.mapParts f = expr :=
  expr.mapParts_eq_self fun part inside => kept part (isConstant_of_mem_parts constant inside)

/-- Replacing parts leaves literals, lists and maps, and makes no constants of other expressions. -/
structure LeavesConstants (f : Expr → Expr) : Prop where
  literal : ∀ value, f (.literal value) = .literal value
  list : ∀ items, f (.list items) = .list items
  map : ∀ entries, f (.map entries) = .map entries
  others : ∀ expr : Expr, expr.isConstant = false → (f expr).isConstant = false

section Left

variable {f : Expr → Expr}

mutual

/-- An expression is a constant exactly if it is one once parts are replaced, by induction over the
expression.
-/
theorem LeavesConstants.isConstant_mapParts (leaves : LeavesConstants f)
    : ∀ expr : Expr, (expr.mapParts f).isConstant = expr.isConstant
  | .list items => by
      rw [mapParts_list, leaves.list]
      exact leaves.allConstant_mapParts items
  | .map entries => by
      rw [mapParts_map, leaves.map]
      exact leaves.allConstantEntries_mapParts entries
  | .literal value => congrArg isConstant (leaves.literal value)
  | .aggregate function distinct args => by
      rw [mapParts_aggregate]
      exact leaves.others _ rfl
  | .call name args => by
      rw [mapParts_call]
      exact leaves.others _ rfl
  | .property _ _ => leaves.others _ rfl
  | .unary _ _ => leaves.others _ rfl
  | .binary _ _ _ => leaves.others _ rfl
  | .star => leaves.others _ rfl
  | .parameter _ => leaves.others _ rfl
  | .var _ => leaves.others _ rfl
  | .column _ _ => leaves.others _ rfl

/-- The same for several expressions. -/
theorem LeavesConstants.allConstant_mapParts (leaves : LeavesConstants f)
    : ∀ exprs : List Expr, allConstant (exprs.map (mapParts f)) = allConstant exprs
  | [] => rfl
  | expr :: rest => by
      rw [List.map_cons, allConstant, allConstant, leaves.isConstant_mapParts expr,
        leaves.allConstant_mapParts rest]

/-- The same for the values of several entries. -/
theorem LeavesConstants.allConstantEntries_mapParts (leaves : LeavesConstants f)
    : ∀ entries : List (String × Expr),
        allConstantEntries (entries.map fun entry => (entry.1, entry.2.mapParts f))
        = allConstantEntries entries
  | [] => rfl
  | (key, expr) :: rest => by
      rw [List.map_cons, allConstantEntries, allConstantEntries, leaves.isConstant_mapParts expr,
        leaves.allConstantEntries_mapParts rest]

end

/-- A constant stays as it is. -/
theorem LeavesConstants.mapParts_eq_self (leaves : LeavesConstants f) {expr : Expr}
    (constant : expr.isConstant = true)
    : expr.mapParts f = expr :=
  mapParts_of_isConstant constant fun part constant => by
    cases part with
    | literal value => exact leaves.literal value
    | list items => exact leaves.list items
    | map entries => exact leaves.map entries
    | _ => cases constant

end Left

end Expr

section Inlining

variable {vars : VarTable} {scope : Nat}

/-- A constant is nothing that is replaced. -/
theorem inlineConstant_of_isConstant {part : Expr} (constant : part.isConstant = true)
    : inlineConstant vars scope part = part := by
  cases part <;> simp_all [Expr.isConstant, inlineConstant]

/-- In a scope the variable stands for a constant that an earlier one declares. -/
def VarTable.EarlierConstant (vars : VarTable) (scope : Nat) (id : VarId) : Prop :=
  ∃ value declaredIn, constant? vars id = some (value, declaredIn) ∧ declaredIn < scope

/-- A variable is replaced exactly if it stands for a constant of an earlier scope. -/
theorem inlineConstant_var_eq_self_iff {id : VarId}
    : inlineConstant vars scope (.var id) = .var id ↔ ¬ vars.EarlierConstant scope id := by
  cases found : constant? vars id with
  | none => simp [inlineConstant, VarTable.EarlierConstant, found]
  | some constant =>
      obtain ⟨value, declaredIn⟩ := constant
      obtain ⟨_, _, _, _, _, constant⟩ := constant?_eq_some found
      have different : value ≠ .var id := by
        rintro rfl
        simp [Expr.isConstant] at constant
      simp [inlineConstant, VarTable.EarlierConstant, found, different]

/-- An entry that is looked up in a map is replaced. -/
theorem inlineConstant_map_ne {entries : List (String × Expr)} {key : String}
    : inlineConstant vars scope (.property (.map entries) key) ≠ .property (.map entries) key := by
  intro same
  simp only [inlineConstant] at same
  cases found : entries.lookup key with
  | none => simp [found] at same
  | some value =>
      have smaller := List.sizeOf_lt_of_mem (mem_of_lookup found)
      rw [found, Option.getD_some] at same
      have size := congrArg sizeOf same
      simp at size smaller
      omega

/-- No part of the expression is replaced where constants are put in place of variables. -/
def Expr.Inlined (vars : VarTable) (scope : Nat) (expr : Expr) : Prop :=
  ∀ part ∈ expr.parts, inlineConstant vars scope part = part

theorem Expr.inlined_of_isConstant {expr : Expr} (constant : expr.isConstant = true)
    : expr.Inlined vars scope :=
  fun _ inside => inlineConstant_of_isConstant (isConstant_of_mem_parts constant inside)

/-- What takes the place of an expression has no part to be replaced, if there is none inside. -/
theorem inlined_inlineConstant {expr : Expr}
    (inner : ∀ part ∈ expr.parts.tail, inlineConstant vars scope part = part)
    : (inlineConstant vars scope expr).Inlined vars scope := by
  have whole (same : inlineConstant vars scope expr = expr)
      : (inlineConstant vars scope expr).Inlined vars scope := by
    rw [same]
    intro part inside
    have parts : expr.parts = expr :: expr.parts.tail := by cases expr <;> rfl
    rw [parts] at inside
    rcases List.mem_cons.mp inside with rfl | inside
    · exact same
    · exact inner part inside
  cases expr with
  | var id =>
      by_cases earlier : vars.EarlierConstant scope id
      · obtain ⟨value, declaredIn, found, before⟩ := earlier
        obtain ⟨_, _, _, _, _, constant⟩ := constant?_eq_some found
        simpa [inlineConstant, found, before] using Expr.inlined_of_isConstant constant
      · exact whole (inlineConstant_var_eq_self_iff.mpr earlier)
  | property base key =>
      cases base with
      | map entries =>
          simp only [inlineConstant]
          cases found : entries.lookup key with
          | none => exact Expr.inlined_of_isConstant rfl
          | some value =>
              intro part inside
              refine inner part (List.mem_cons_of_mem _ (Expr.mem_partsEntries.mpr ?_))
              exact ⟨(key, value), mem_of_lookup found, inside⟩
      | _ => exact whole rfl
  | _ => exact whole rfl

mutual

/-- Once constants are put in place of variables, no part is left to be replaced. Induction over the
expression.
-/
theorem Expr.inlined_mapParts
    : ∀ expr : Expr, (expr.mapParts (inlineConstant vars scope)).Inlined vars scope
  | .property base key =>
      mapParts_property _ base key ▸ inlined_inlineConstant base.inlined_mapParts
  | .unary op operand =>
      mapParts_unary _ op operand ▸ inlined_inlineConstant operand.inlined_mapParts
  | .binary op left right => by
      rw [mapParts_binary]
      refine inlined_inlineConstant fun part inside => ?_
      rcases List.mem_append.mp inside with inside | inside
      · exact left.inlined_mapParts part inside
      · exact right.inlined_mapParts part inside
  | .list items => mapParts_list _ items ▸ inlined_inlineConstant (Expr.inlined_mapAllParts items)
  | .map entries =>
      mapParts_map _ entries ▸ inlined_inlineConstant (Expr.inlined_mapEntryParts entries)
  | .aggregate function distinct args =>
      mapParts_aggregate _ function distinct args
        ▸ inlined_inlineConstant (Expr.inlined_mapAllParts args)
  | .call name args =>
      mapParts_call _ name args ▸ inlined_inlineConstant (Expr.inlined_mapAllParts args)
  | .var id => mapParts_var _ id ▸ inlined_inlineConstant (by simp [parts])
  | .literal _ => Expr.inlined_of_isConstant rfl
  | .star => by simp [Inlined, parts, mapParts, mapPartsM, inlineConstant]
  | .parameter _ => by simp [Inlined, parts, mapParts, mapPartsM, inlineConstant]
  | .column _ _ => by simp [Inlined, parts, mapParts, mapPartsM, inlineConstant]

/-- The same for several expressions. -/
theorem Expr.inlined_mapAllParts
    : ∀ exprs : List Expr,
        ∀ part ∈ Expr.partsAll (exprs.map (Expr.mapParts (inlineConstant vars scope))),
          inlineConstant vars scope part = part
  | [] => by simp [partsAll]
  | expr :: rest => by
      intro part inside
      rcases List.mem_append.mp inside with inside | inside
      · exact expr.inlined_mapParts part inside
      · exact Expr.inlined_mapAllParts rest part inside

/-- The same for the values of several entries. -/
theorem Expr.inlined_mapEntryParts
    : ∀ entries : List (String × Expr),
        ∀ part ∈ Expr.partsEntries
            (entries.map fun entry => (entry.1, entry.2.mapParts (inlineConstant vars scope))),
          inlineConstant vars scope part = part
  | [] => by simp [partsEntries]
  | (_, expr) :: rest => by
      intro part inside
      rcases List.mem_append.mp inside with inside | inside
      · exact expr.inlined_mapParts part inside
      · exact Expr.inlined_mapEntryParts rest part inside

end

/-- An expression stays as it is exactly if none of its parts is replaced. -/
theorem Expr.mapParts_inlineConstant_eq_self_iff {expr : Expr}
    : expr.mapParts (inlineConstant vars scope) = expr ↔ expr.Inlined vars scope :=
  ⟨fun same => same ▸ expr.inlined_mapParts, expr.mapParts_eq_self⟩

/-- The expression mentions a variable that stands for a constant of an earlier scope. -/
def Expr.MentionsConstant (vars : VarTable) (scope : Nat) (expr : Expr) : Prop :=
  ∃ id, .var id ∈ expr.parts ∧ vars.EarlierConstant scope id

instance (vars : VarTable) (scope : Nat) (expr : Expr)
    : Decidable (expr.MentionsConstant vars scope) :=
  decidable_of_iff
    (expr.parts.any fun
      | .var id => (constant? vars id).any fun constant => constant.2 < scope
      | _ => false)
    (by
      rw [List.any_eq_true]
      constructor
      · rintro ⟨part, inside, earlier⟩
        split at earlier
        · rename_i id
          obtain ⟨⟨value, declaredIn⟩, found, before⟩ := (Option.any_eq_true _ _).mp earlier
          exact ⟨id, inside, value, declaredIn, found, of_decide_eq_true before⟩
        · cases earlier
      · rintro ⟨id, inside, value, declaredIn, found, before⟩
        refine ⟨.var id, inside, ?_⟩
        simp [found, before])

/-- The expression looks up an entry in a map that is written out. -/
def Expr.LooksUp (expr : Expr) : Prop :=
  ∃ entries key, .property (.map entries) key ∈ expr.parts

/-- What is replaced are constants and entries of maps. -/
theorem Expr.inlined_iff {expr : Expr}
    : expr.Inlined vars scope ↔ ¬ expr.MentionsConstant vars scope ∧ ¬ expr.LooksUp := by
  constructor
  · intro inlined
    refine ⟨?_, ?_⟩
    · rintro ⟨id, inside, earlier⟩
      exact inlineConstant_var_eq_self_iff.mp (inlined _ inside) earlier
    · rintro ⟨entries, key, inside⟩
      exact inlineConstant_map_ne (inlined _ inside)
  · rintro ⟨noMention, noLookup⟩ part inside
    cases part with
    | var id =>
        exact inlineConstant_var_eq_self_iff.mpr fun earlier => noMention ⟨id, inside, earlier⟩
    | property base key =>
        cases base with
        | map entries => exact absurd ⟨entries, key, inside⟩ noLookup
        | _ => rfl
    | _ => rfl

end Inlining

end CypherSql.Plan
