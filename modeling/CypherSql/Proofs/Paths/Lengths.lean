import CypherSql.Proofs.Inlining.Parts

/-! Functions that are simplified, part by part: which calls become numbers, and which constants
come of that.
-/

namespace CypherSql.Plan

variable {vars later : VarTable} {id : VarId}

/-- A part replaced by what it is changed to, where that succeeds. -/
def orSame (f : Expr → Except LoweringError Expr) (part : Expr) : Expr :=
  (f part).toOption.getD part

namespace Expr

variable {f : Expr → Except LoweringError Expr}

theorem orSame_of_ok {part changed : Expr} (succeeded : f part = .ok changed)
    : orSame f part = changed := by
  rw [orSame, succeeded]
  rfl

mutual

/-- Where all parts are changed, each is replaced by what it is changed to. Induction over the
expression.
-/
theorem eq_mapParts_of_mapPartsM
    : ∀ {expr changed : Expr}, expr.mapPartsM f = .ok changed → expr.mapParts (orSame f) = changed
  | .property base key, _, succeeded => by
      obtain ⟨base', inner, succeeded⟩ := bind_eq_ok.mp succeeded
      rw [mapParts_property, eq_mapParts_of_mapPartsM inner, orSame_of_ok succeeded]
  | .unary op operand, _, succeeded => by
      obtain ⟨operand', inner, succeeded⟩ := bind_eq_ok.mp succeeded
      rw [mapParts_unary, eq_mapParts_of_mapPartsM inner, orSame_of_ok succeeded]
  | .binary op left right, _, succeeded => by
      obtain ⟨left', innerLeft, succeeded⟩ := bind_eq_ok.mp succeeded
      obtain ⟨right', innerRight, succeeded⟩ := bind_eq_ok.mp succeeded
      rw [mapParts_binary, eq_mapParts_of_mapPartsM innerLeft, eq_mapParts_of_mapPartsM innerRight,
        orSame_of_ok succeeded]
  | .list items, _, succeeded => by
      obtain ⟨items', inner, succeeded⟩ := bind_eq_ok.mp succeeded
      rw [mapParts_list, eq_mapParts_of_mapAllPartsM inner, orSame_of_ok succeeded]
  | .map entries, _, succeeded => by
      obtain ⟨entries', inner, succeeded⟩ := bind_eq_ok.mp succeeded
      rw [mapParts_map, eq_mapParts_of_mapEntryPartsM inner, orSame_of_ok succeeded]
  | .aggregate function distinct args, _, succeeded => by
      obtain ⟨args', inner, succeeded⟩ := bind_eq_ok.mp succeeded
      rw [mapParts_aggregate, eq_mapParts_of_mapAllPartsM inner, orSame_of_ok succeeded]
  | .call name args, _, succeeded => by
      obtain ⟨args', inner, succeeded⟩ := bind_eq_ok.mp succeeded
      rw [mapParts_call, eq_mapParts_of_mapAllPartsM inner, orSame_of_ok succeeded]
  | .literal _, _, succeeded => orSame_of_ok succeeded
  | .star, _, succeeded => orSame_of_ok succeeded
  | .parameter _, _, succeeded => orSame_of_ok succeeded
  | .var _, _, succeeded => orSame_of_ok succeeded
  | .column _ _, _, succeeded => orSame_of_ok succeeded

/-- The same for several expressions. -/
theorem eq_mapParts_of_mapAllPartsM
    : ∀ {exprs changed : List Expr},
        mapAllPartsM f exprs = .ok changed → exprs.map (mapParts (orSame f)) = changed
  | [], _, succeeded => Except.ok.inj succeeded
  | expr :: rest, _, succeeded => by
      obtain ⟨expr', inner, succeeded⟩ := bind_eq_ok.mp succeeded
      obtain ⟨rest', others, succeeded⟩ := bind_eq_ok.mp succeeded
      rw [List.map_cons, eq_mapParts_of_mapPartsM inner, eq_mapParts_of_mapAllPartsM others]
      exact Except.ok.inj succeeded

/-- The same for the values of several entries. -/
theorem eq_mapParts_of_mapEntryPartsM
    : ∀ {entries changed : List (String × Expr)},
        mapEntryPartsM f entries = .ok changed
        → entries.map (fun entry => (entry.1, entry.2.mapParts (orSame f))) = changed
  | [], _, succeeded => Except.ok.inj succeeded
  | (key, expr) :: rest, _, succeeded => by
      obtain ⟨expr', inner, succeeded⟩ := bind_eq_ok.mp succeeded
      obtain ⟨rest', others, succeeded⟩ := bind_eq_ok.mp succeeded
      rw [List.map_cons, eq_mapParts_of_mapPartsM inner, eq_mapParts_of_mapEntryPartsM others]
      exact Except.ok.inj succeeded

end

end Expr

/-- A function in a part that is simplified, where that succeeds. -/
def simplified (vars : VarTable) : Expr → Expr :=
  orSame (simplifyFunction vars)

/-- A node or relationship is no path. -/
theorem pathOf?_of_isEntity (entity : isEntity vars id = true) : pathOf? vars id = none := by
  unfold pathOf?
  split
  · rename_i found
    simp [isEntity, VarTable.type?, found, Definition.type?] at entity
  · rfl

/-- What a call becomes: the number of hops of a path, a node or relationship, or a call still. -/
inductive Simplifies (vars : VarTable) (name : String) (args : List Expr) : Expr → Prop where
  | length {hops : Nat} (named : lowerName name = "length")
    (isPath : pathLength? vars args = some hops)
    : Simplifies vars name args (.literal (.integer hops))
  | entity {id : VarId} (named : lowerName name ≠ "length") (isEntity : isEntity vars id = true)
    : Simplifies vars name args (.var id)
  | call {args' : List Expr} (noPath : lowerName name = "length" → pathLength? vars args = none)
    : Simplifies vars name args (.call name args')

theorem simplifies_knownCall {name : String} {args : List Expr}
    (noPath : lowerName name = "length" → pathLength? vars args = none)
    : Simplifies vars name args ((knownCall name args).toOption.getD (.call name args)) := by
  unfold knownCall
  split <;> exact .call noPath

theorem simplifies_call (vars : VarTable) (name : String) (args : List Expr)
    : Simplifies vars name args (simplified vars (.call name args)) := by
  change Simplifies vars name args ((simplifyCall vars name args).toOption.getD (.call name args))
  unfold simplifyCall
  split
  · rename_i isId
    have noLength : lowerName name ≠ "length" := by
      rw [isId]
      decide
    unfold simplifyId
    split
    · split
      · exact .entity noLength ‹_›
      · exact .call fun named => absurd named noLength
    · exact .call fun named => absurd named noLength
  · split
    · rename_i isLength
      cases found : pathLength? vars args with
      | some hops => exact .length isLength found
      | none => exact simplifies_knownCall fun _ => found
    · rename_i noLength
      exact simplifies_knownCall fun named => absurd named noLength

/-- Only a variable is simplified to a path. -/
theorem pathLength?_map_simplified (args : List Expr)
    : pathLength? vars (args.map (Expr.mapParts (simplified vars))) = pathLength? vars args := by
  have single (arg : Expr)
      : pathLength? vars [arg.mapParts (simplified vars)] = pathLength? vars [arg] := by
    cases arg with
    | call name args =>
        rw [Expr.mapParts_call]
        have becomes := simplifies_call vars name (args.map (Expr.mapParts (simplified vars)))
        generalize simplified vars _ = changed at becomes
        cases becomes with
        | length named isPath => rfl
        | entity named isEntity => simp [pathLength?, pathOf?_of_isEntity isEntity]
        | call noPath => rfl
    | list items => rw [Expr.mapParts_list]; rfl
    | map entries => rw [Expr.mapParts_map]; rfl
    | aggregate function distinct args =>
        rw [Expr.mapParts_aggregate]
        cases function <;> rfl
    | _ => rfl
  match args with
  | [] => rfl
  | [arg] => exact single arg
  | _ :: _ :: _ => simp [pathLength?]

theorem pathLength?_congr (paths : ∀ id, pathOf? later id = pathOf? vars id) (args : List Expr)
    : pathLength? later args = pathLength? vars args := by
  unfold pathLength?
  split
  · rw [paths]
  · rfl

mutual

/-- The constant that an expression is once the lengths of paths are numbers, if it is one then. -/
def Expr.measured? (vars : VarTable) : Expr → Option Expr
  | .literal value => some (.literal value)
  | .list items => (Expr.measuredAll? vars items).map .list
  | .map entries => (Expr.measuredEntries? vars entries).map .map
  | .call name args =>
      if lowerName name = "length" then
        (pathLength? vars args).map fun hops => .literal (.integer hops)
      else none
  | _ => none

/-- The constants that several expressions are then. -/
def Expr.measuredAll? (vars : VarTable) : List Expr → Option (List Expr)
  | [] => some []
  | expr :: rest =>
      (expr.measured? vars).bind fun value => (Expr.measuredAll? vars rest).map (value :: ·)

/-- The constants that the values of several entries are then. -/
def Expr.measuredEntries? (vars : VarTable) : List (String × Expr) → Option (List (String × Expr))
  | [] => some []
  | (key, expr) :: rest =>
      (expr.measured? vars).bind fun value =>
        (Expr.measuredEntries? vars rest).map ((key, value) :: ·)

end

/-- An expression, if it is a constant. -/
def Expr.ifConstant (expr : Expr) : Option Expr :=
  if expr.isConstant then some expr else none

/-- Several expressions, if all are constants. -/
def Expr.allIfConstant (exprs : List Expr) : Option (List Expr) :=
  if Expr.allConstant exprs then some exprs else none

/-- Several entries, if their values are constants. -/
def Expr.entriesIfConstant (entries : List (String × Expr)) : Option (List (String × Expr)) :=
  if Expr.allConstantEntries entries then some entries else none

theorem Expr.ifConstant_list (items : List Expr)
    : (Expr.list items).ifConstant = (Expr.allIfConstant items).map .list := by
  cases constant : Expr.allConstant items <;> simp [ifConstant, allIfConstant, isConstant, constant]

theorem Expr.ifConstant_map (entries : List (String × Expr))
    : (Expr.map entries).ifConstant = (Expr.entriesIfConstant entries).map .map := by
  cases constant : Expr.allConstantEntries entries <;>
    simp [ifConstant, entriesIfConstant, isConstant, constant]

theorem Expr.allIfConstant_cons (expr : Expr) (rest : List Expr)
    : Expr.allIfConstant (expr :: rest)
      = expr.ifConstant.bind fun value => (Expr.allIfConstant rest).map (value :: ·) := by
  cases first : expr.isConstant <;> cases others : Expr.allConstant rest <;>
    simp [ifConstant, allIfConstant, allConstant, first, others]

theorem Expr.entriesIfConstant_cons (key : String) (expr : Expr) (rest : List (String × Expr))
    : Expr.entriesIfConstant ((key, expr) :: rest)
      = expr.ifConstant.bind fun value =>
        (Expr.entriesIfConstant rest).map ((key, value) :: ·) := by
  cases first : expr.isConstant <;> cases others : Expr.allConstantEntries rest <;>
    simp [ifConstant, entriesIfConstant, allConstantEntries, first, others]

/-- A call is a constant once functions are simplified if it is the length of a path. -/
theorem Expr.measured?_call_eq (paths : ∀ id, pathOf? later id = pathOf? vars id) (name : String)
    (args : List Expr)
    : (Expr.call name args).measured? vars
      = ((Expr.call name args).mapParts (simplified later)).ifConstant := by
  have same : pathLength? later (args.map (Expr.mapParts (simplified later)))
      = pathLength? vars args := by
    rw [pathLength?_map_simplified, pathLength?_congr paths]
  have becomes := simplifies_call later name (args.map (Expr.mapParts (simplified later)))
  rw [Expr.mapParts_call, Expr.measured?]
  generalize simplified later _ = changed at becomes
  cases becomes with
  | length named isPath =>
      rw [if_pos named, ← same, isPath]
      rfl
  | entity named _ =>
      rw [if_neg named]
      rfl
  | call noPath =>
      split
      · rename_i named
        rw [← same, noPath named]
        rfl
      · rfl

mutual

/-- The constants that come of simplified functions, by induction over the expression. -/
theorem Expr.measured?_eq (paths : ∀ id, pathOf? later id = pathOf? vars id)
    : ∀ expr : Expr, expr.measured? vars = (expr.mapParts (simplified later)).ifConstant
  | .literal _ => rfl
  | .list items => by
      rw [Expr.mapParts_list, Expr.measured?, Expr.measuredAll?_eq paths items,
        ← Expr.ifConstant_list]
      rfl
  | .map entries => by
      rw [Expr.mapParts_map, Expr.measured?, Expr.measuredEntries?_eq paths entries,
        ← Expr.ifConstant_map]
      rfl
  | .call name args => Expr.measured?_call_eq paths name args
  | .aggregate function distinct args => by
      rw [Expr.mapParts_aggregate]
      cases function <;> rfl
  | .property _ _ => rfl
  | .unary _ _ => rfl
  | .binary _ _ _ => rfl
  | .star => rfl
  | .parameter _ => rfl
  | .var _ => rfl
  | .column _ _ => rfl

/-- The same for several expressions. -/
theorem Expr.measuredAll?_eq (paths : ∀ id, pathOf? later id = pathOf? vars id)
    : ∀ exprs : List Expr,
        Expr.measuredAll? vars exprs
        = Expr.allIfConstant (exprs.map (Expr.mapParts (simplified later)))
  | [] => rfl
  | expr :: rest => by
      rw [Expr.measuredAll?, expr.measured?_eq paths, Expr.measuredAll?_eq paths rest,
        List.map_cons, Expr.allIfConstant_cons]

/-- The same for the values of several entries. -/
theorem Expr.measuredEntries?_eq (paths : ∀ id, pathOf? later id = pathOf? vars id)
    : ∀ entries : List (String × Expr),
        Expr.measuredEntries? vars entries
        = Expr.entriesIfConstant
            (entries.map fun entry => (entry.1, entry.2.mapParts (simplified later)))
  | [] => rfl
  | (key, expr) :: rest => by
      rw [Expr.measuredEntries?, expr.measured?_eq paths, Expr.measuredEntries?_eq paths rest,
        List.map_cons, Expr.entriesIfConstant_cons]

end

/-- What an expression is once the lengths of paths are numbers is a constant. -/
theorem Expr.isConstant_of_measured? {expr value : Expr}
    (measured : expr.measured? vars = some value)
    : value.isConstant = true := by
  rw [Expr.measured?_eq fun _ => rfl, Expr.ifConstant] at measured
  split at measured
  · obtain rfl := Option.some.inj measured
    assumption
  · cases measured

end CypherSql.Plan
