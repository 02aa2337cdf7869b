import CypherSql.Proofs.FreshNames
import CypherSql.Proofs.Paths.Kept

/-! What the variants of a query share: they declare the same variables under the names that are
written in the query, and any others under generated names. So those that are written stand for the
same.
-/

namespace CypherSql.Plan

/-- The name is not one that is generated for a node or relationship without a name. -/
def Written (name : String) : Prop :=
  ¬ "anon".toList <+: name.toList

instance : DecidablePred Written :=
  fun name => inferInstanceAs (Decidable (¬ "anon".toList <+: name.toList))

/-- A number does not make a written name a generated one. -/
theorem Written.numbered {base : String} (written : Written base) (n : Nat)
    : Written (base ++ "_" ++ toString n) := by
  intro generated
  simp only [String.toList_append, List.append_assoc] at generated
  have ofBase := List.prefix_append base.toList ("_".toList ++ (toString n).toList)
  rcases List.prefix_or_prefix_of_prefix generated ofBase with short | long
  · exact written short
  · -- The base ends inside of the prefix, which has no underscore after it.
    obtain ⟨rest, same⟩ := long
    rw [← same] at generated
    have inRest := (List.prefix_append_right_inj base.toList).mp generated
    cases rest with
    | nil =>
        rw [List.append_nil] at same
        exact written ⟨[], (List.append_nil _).trans same.symm⟩
    | cons first others =>
        have isUnderscore : first = '_' := (List.cons_prefix_cons.mp inRest).1
        have member : '_' ∈ "anon".toList := by simp [← same, isUnderscore]
        revert member
        decide

theorem not_written_numbered {base : String} (generated : ¬ Written base) (n : Nat)
    : ¬ Written (base ++ "_" ++ toString n) := by
  rw [Written, not_not] at generated ⊢
  simp only [String.toList_append, List.append_assoc]
  exact generated.trans (List.prefix_append _ _)

namespace Naming

variable {naming other : Naming} {base : String}

/-- A fresh name is written if its base is. -/
theorem written_fresh (naming : Naming) : Written (naming.fresh base).1 ↔ Written base := by
  unfold fresh
  dsimp only
  split
  · exact ⟨fun written => by_contra fun generated => not_written_numbered generated _ written,
      fun written => written.numbered _⟩
  · rfl

/-- The same written names are handed out. -/
def Shares (naming other : Naming) : Prop :=
  ∀ name, Written name → (name ∈ naming.used ↔ name ∈ other.used)

/-- Where the same written names are taken, the next one for a written base is the same. -/
theorem Shares.fresh_eq (shares : naming.Shares other) (written : Written base)
    : (naming.fresh base).1 = (other.fresh base).1 := by
  have injective := numbered_injective (base ++ "_")
  have least := @freeNumber_least naming.used _ 1 injective
  have leastOther := @freeNumber_least other.used _ 1 injective
  have same (n : Nat) := shares (base ++ "_" ++ toString n) (written.numbered n)
  simp only [fresh, shares base written]
  split
  · congr 2
    refine Nat.le_antisymm ?_ ?_
    · by_contra later
      exact leastOther.2.1 ((same _).mp (least.2.2 _ leastOther.1 (Nat.lt_of_not_le later)))
    · by_contra later
      exact least.2.1 ((same _).mpr (leastOther.2.2 _ least.1 (Nat.lt_of_not_le later)))
  · rfl

end Naming

/-- What variants share of a definition. -/
inductive Shape where
  | node
  | relationship
  | path (hops : Nat) (first : Option VarId)
  | projected (expr : Expr)
  | temporary (column : String)

def Definition.shape : Definition → Shape
  | .node _ => .node
  | .relationship _ => .relationship
  | .path hops elements => .path hops elements.head?
  | .projected expr _ => .projected expr
  | .temporary column => .temporary column

theorem Definition.shape_of_projection? {definition : Definition} {expr : Expr}
    (projects : definition.projection? = some expr)
    : definition.shape = .projected expr := by
  cases definition with
  | projected own type => exact congrArg Shape.projected (Option.some.inj projects)
  | node | relationship | path | temporary => cases projects

theorem Definition.shape_of_path? {definition : Definition} {hops : Nat} {elements : List VarId}
    (isPath : definition.path? = some (hops, elements))
    : definition.shape = .path hops elements.head? := by
  cases definition with
  | path own others =>
      obtain ⟨rfl, rfl⟩ := Prod.mk.inj (Option.some.inj isPath)
      rfl
  | node | relationship | projected | temporary => cases isPath

/-- The variable that a shape is another name of. -/
def Shape.target? : Shape → Option VarId
  | .projected (.var target) => some target
  | _ => none

/-- What variants share of a variable: its scope and the shape of its definition. -/
def Variable.shape (var : Variable) : Nat × Shape :=
  (var.scope, var.definition.shape)

namespace VarTable

variable {vars other : VarTable} {order orderOther : List VarId} {id : VarId}

/-- The tables share the variables with written ids. -/
def Shares (vars other : VarTable) : Prop :=
  ∀ id, Written id → (vars.get? id).map Variable.shape = (other.get? id).map Variable.shape

theorem Shares.refl (vars : VarTable) : vars.Shares vars := fun _ _ => rfl

theorem Shares.symm (shares : vars.Shares other) : other.Shares vars :=
  fun id written => (shares id written).symm

theorem Shares.trans {third : VarTable} (left : vars.Shares other) (right : other.Shares third)
    : vars.Shares third :=
  fun id written => (left id written).trans (right id written)

theorem Shares.get? (shares : vars.Shares other) (written : Written id) {var : Variable}
    (found : vars.get? id = some var)
    : ∃ same, other.get? id = some same ∧ same.shape = var.shape := by
  have shares := shares id written
  rw [found, Option.map_some] at shares
  exact Option.map_eq_some_iff.mp shares.symm

/-- Only variables with written ids project anything, and what they project mentions only written
ids. Named paths start at nodes with written ids.
-/
structure Plain (vars : VarTable) : Prop where
  written : ∀ {id var}, vars.get? id = some var → var.definition.projection? ≠ none → Written id
  within
    : ∀ {id var expr},
        vars.get? id = some var → var.definition.projection? = some expr → expr.Within Written
  starts
    : ∀ {id var hops elements first},
        vars.get? id = some var
        → Written id
        → var.definition.path? = some (hops, elements)
        → elements.head? = some first
        → Written first

/-- The tables have the same other names of variables with written ids. -/
def SharesNames (vars other : VarTable) : Prop :=
  ∀ id,
    Written id
    → vars.target? id = other.target? id ∧ ∀ target, vars.target? id = some target → Written target

theorem Shares.sharesNames (shares : vars.Shares other) (plain : vars.Plain)
    : vars.SharesNames other := by
  have target (vars : VarTable) (id : VarId)
      : vars.target? id
        = ((vars.get? id).map Variable.shape).bind fun shape => shape.2.target? := by
    rw [VarTable.target?, VarTable.definition?]
    cases vars.get? id with
    | none => rfl
    | some var =>
        obtain ⟨name, _, scope, definition⟩ := var
        cases definition with
        | projected expr type => cases expr <;> rfl
        | _ => rfl
  intro id written
  refine ⟨by rw [target, target, shares id written], fun next named => ?_⟩
  obtain ⟨definition, found, isName⟩ := Option.bind_eq_some_iff.mp named
  obtain ⟨var, present, rfl⟩ := VarTable.definition?_eq_some.mp found
  exact Expr.within_var.mp (plain.within present (Definition.projection?_of_target? isName))

/-- Variables with written ids stand for the same, which has a written id too. Induction over the
chain of names.
-/
theorem SharesNames.resolve (shares : vars.SharesNames other) (ordered : vars.Ordered order)
    (orderedOther : other.Ordered orderOther) (written : Written id)
    : vars.resolve id = other.resolve id ∧ Written (vars.resolve id) := by
  induction id using ordered.chain_induction with
  | last id last =>
      have lastOther := (shares id written).1.symm.trans last
      rw [Ordered.resolve_of_target_none last, Ordered.resolve_of_target_none lastOther]
      exact ⟨rfl, written⟩
  | next id target next ih =>
      obtain ⟨same, each⟩ := shares id written
      rw [ordered.resolve_of_target next, orderedOther.resolve_of_target (same.symm.trans next)]
      exact ih (each target next)

end VarTable

namespace Expr

variable {allowed : VarId → Prop} {f g : Expr → Expr}

/-- Two functions replace parts over allowed variables by the same, over such variables again. -/
def AgreeOver (allowed : VarId → Prop) (f g : Expr → Expr) : Prop :=
  ∀ part, part.Within allowed → f part = g part ∧ (f part).Within allowed

/-- Replacing parts mentions nothing but allowed variables if each replacement does. -/
theorem AgreeOver.within (agree : AgreeOver allowed f g) {expr : Expr}
    (isWithin : expr.Within allowed)
    : (expr.mapParts f).Within allowed :=
  mapPartsM_within Modality.ofId (f := fun part => pure (f part))
    (fun part within => (agree part within).2) expr isWithin

theorem AgreeOver.within_all (agree : AgreeOver allowed f g) {exprs : List Expr}
    (isWithin : ∀ expr ∈ exprs, expr.Within allowed)
    : ∀ expr ∈ exprs.map (mapParts f), expr.Within allowed := by
  intro expr member
  obtain ⟨old, present, rfl⟩ := List.mem_map.mp member
  exact agree.within (isWithin old present)

mutual

/-- The parts of an expression over allowed variables may be replaced by either of the two.
Induction over the expression.
-/
theorem AgreeOver.mapParts_eq (agree : AgreeOver allowed f g)
    : ∀ expr : Expr, expr.Within allowed → expr.mapParts f = expr.mapParts g
  | .property base key, isWithin => by
      have inner := within_property.mp isWithin
      rw [mapParts_property, mapParts_property, ← agree.mapParts_eq base inner]
      exact (agree _ (within_property.mpr (agree.within inner))).1
  | .unary op operand, isWithin => by
      have inner := within_unary.mp isWithin
      rw [mapParts_unary, mapParts_unary, ← agree.mapParts_eq operand inner]
      exact (agree _ (within_unary.mpr (agree.within inner))).1
  | .binary op left right, isWithin => by
      obtain ⟨withinLeft, withinRight⟩ := within_binary.mp isWithin
      rw [mapParts_binary, mapParts_binary, ← agree.mapParts_eq left withinLeft,
        ← agree.mapParts_eq right withinRight]
      exact (agree _ (within_binary.mpr ⟨agree.within withinLeft, agree.within withinRight⟩)).1
  | .list items, isWithin => by
      have inner := within_list.mp isWithin
      rw [mapParts_list, mapParts_list, ← agree.mapAllParts_eq inner]
      exact (agree _ (within_list.mpr (agree.within_all inner))).1
  | .map entries, isWithin => by
      have inner := within_map.mp isWithin
      rw [mapParts_map, mapParts_map, ← agree.mapEntryParts_eq inner]
      refine (agree _ (within_map.mpr fun entry member => ?_)).1
      obtain ⟨old, present, rfl⟩ := List.mem_map.mp member
      exact agree.within (inner old present)
  | .aggregate function distinct args, isWithin => by
      have inner := within_aggregate.mp isWithin
      rw [mapParts_aggregate, mapParts_aggregate, ← agree.mapAllParts_eq inner]
      exact (agree _ (within_aggregate.mpr (agree.within_all inner))).1
  | .call name args, isWithin => by
      have inner := within_call.mp isWithin
      rw [mapParts_call, mapParts_call, ← agree.mapAllParts_eq inner]
      exact (agree _ (within_call.mpr (agree.within_all inner))).1
  | .literal _, isWithin => (agree _ isWithin).1
  | .star, isWithin => (agree _ isWithin).1
  | .parameter _, isWithin => (agree _ isWithin).1
  | .var _, isWithin => (agree _ isWithin).1
  | .column _ _, isWithin => (agree _ isWithin).1

/-- The same for several expressions. -/
theorem AgreeOver.mapAllParts_eq (agree : AgreeOver allowed f g)
    : ∀ {exprs : List Expr},
        (∀ expr ∈ exprs, expr.Within allowed) → exprs.map (mapParts f) = exprs.map (mapParts g)
  | [], _ => rfl
  | expr :: rest, isWithin => by
      rw [List.map_cons, List.map_cons, agree.mapParts_eq expr (isWithin expr (by simp)),
        agree.mapAllParts_eq fun expr member => isWithin expr (by simp [member])]

/-- The same for the values of several entries. -/
theorem AgreeOver.mapEntryParts_eq (agree : AgreeOver allowed f g)
    : ∀ {entries : List (String × Expr)},
        (∀ entry ∈ entries, entry.2.Within allowed)
        → entries.map (fun entry => (entry.1, entry.2.mapParts f))
          = entries.map fun entry => (entry.1, entry.2.mapParts g)
  | [], _ => rfl
  | (key, expr) :: rest, isWithin => by
      rw [List.map_cons, List.map_cons, agree.mapParts_eq expr (isWithin (key, expr) (by simp)),
        agree.mapEntryParts_eq fun entry member => isWithin entry (by simp [member])]

end

end Expr

end CypherSql.Plan
