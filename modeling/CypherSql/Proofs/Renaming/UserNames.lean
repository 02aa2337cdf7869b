import CypherSql.Proofs.Printing.Lexemes
import CypherSql.Proofs.Renaming.Clauses
import Mathlib.Data.Fintype.Sum
import Mathlib.GroupTheory.Perm.Basic

/-! Renamings that come from other names for the variables of a query. Lowering makes ids of a name
by putting numbers behind it, so that a new name says what becomes of all of them.
-/

namespace CypherSql

/-- What stands before the first underscore. -/
def stem (name : String) : String :=
  String.ofList (name.toList.takeWhile (· != '_'))

/-- What stands from the first underscore on. -/
def stemEnd (name : String) : List Char :=
  name.toList.dropWhile (· != '_')

/-- The name has no underscore. -/
def IsStem (name : String) : Prop :=
  ∀ c ∈ name.toList, (c != '_') = true

/-- The name with another stem, if only numbers stand behind the stem. -/
def mapStem (f : String → String) (name : String) : String :=
  if (stemEnd name).all fun c => c.isDigit || c == '_' then
    f (stem name) ++ String.ofList (stemEnd name)
  else name

section Stems

variable {name : String}

theorem stem_append_stemEnd (name : String) : stem name ++ String.ofList (stemEnd name) = name := by
  apply String.toList_inj.mp
  simp [stem, stemEnd]

theorem isStem_stem (name : String) : IsStem (stem name) := by
  intro c member
  rw [stem, String.toList_ofList] at member
  exact List.mem_takeWhile_imp (p := (· != '_')) member

theorem stem_of_isStem (plain : IsStem name) : stem name = name ∧ stemEnd name = [] := by
  constructor
  · apply String.toList_inj.mp
    rw [stem, String.toList_ofList]
    exact List.takeWhile_eq_self_iff.mpr plain
  · exact List.dropWhile_eq_nil_iff.mpr plain

/-- A text that opens with an underscore belongs to the end. -/
theorem stem_append (opens : List Char) {rest : List Char} (behind : rest.head? = some '_')
    : (opens ++ rest).takeWhile (· != '_') = opens.takeWhile (· != '_')
      ∧ (opens ++ rest).dropWhile (· != '_') = opens.dropWhile (· != '_') ++ rest := by
  obtain ⟨others, rfl⟩ := List.head?_eq_some_iff.mp behind
  induction opens with
  | nil => simp
  | cons c opens ih =>
      cases same : c != '_' with
      | false => simp [same]
      | true => simp [same, ih]

/-- The end is empty or opens with an underscore. -/
theorem stemEnd_cases (name : String) : stemEnd name = [] ∨ (stemEnd name).head? = some '_' := by
  have first := List.head?_dropWhile_not (· != '_') name.toList
  unfold stemEnd
  cases shape : name.toList.dropWhile (· != '_') with
  | nil => exact .inl rfl
  | cons c rest =>
      rw [shape] at first
      exact .inr (by simpa using first)

/-- A name without an underscore is the stem again once an end is put behind it. -/
theorem IsStem.append_stemEnd {other : String} (plain : IsStem other) (name : String)
    : stem (other ++ String.ofList (stemEnd name)) = other
      ∧ stemEnd (other ++ String.ofList (stemEnd name)) = stemEnd name := by
  obtain ⟨own, none⟩ := stem_of_isStem plain
  rcases stemEnd_cases name with empty | opens
  · simpa [empty] using And.intro own none
  · obtain ⟨before, behind⟩ := stem_append other.toList opens
    constructor
    · apply String.toList_inj.mp
      simpa [stem, before] using congrArg String.toList own
    · rw [stemEnd, String.toList_append, String.toList_ofList, behind]
      exact congrArg (· ++ stemEnd name) none

theorem mapStem_of_isStem (f : String → String) (plain : IsStem name)
    : mapStem f name = f name := by
  obtain ⟨own, none⟩ := stem_of_isStem plain
  simp [mapStem, own, none]

/-- A number that is put behind a name stays there. -/
theorem mapStem_numbered (f : String → String) (name : String) (n : Nat)
    : mapStem f (name ++ "_" ++ toString n) = mapStem f name ++ "_" ++ toString n := by
  have letters : (name ++ "_" ++ toString n).toList = name.toList ++ '_' :: Nat.toDigits 10 n := by
    simp
  have digits : (Nat.toDigits 10 n).all fun c => c.isDigit || c == '_' := by
    refine List.all_eq_true.mpr fun c member => ?_
    rw [Nat.isDigit_of_mem_toDigits (by decide) (by decide) member, Bool.true_or]
  have opens : ('_' :: Nat.toDigits 10 n).head? = some '_' := rfl
  obtain ⟨before, behind⟩ := stem_append name.toList opens
  have own : stem (name ++ "_" ++ toString n) = stem name := by rw [stem, letters, before, stem]
  have rest : stemEnd (name ++ "_" ++ toString n) = stemEnd name ++ '_' :: Nat.toDigits 10 n := by
    rw [stemEnd, letters, behind, stemEnd]
  simp only [mapStem, own, rest, List.all_append, List.all_cons, digits]
  split
  · rename_i all
    simp only [beq_self_eq_true, Bool.or_true, Bool.and_true] at all
    rw [if_pos all]
    apply String.toList_inj.mp
    simp
  · rename_i some
    simp only [beq_self_eq_true, Bool.or_true, Bool.and_true] at some
    rw [if_neg some]

/-- Changes that undo each other on stems undo each other on all names. -/
theorem mapStem_leftInverse {f g : String → String} (plain : ∀ name, IsStem name → IsStem (f name))
    (undoes : Function.LeftInverse g f)
    : Function.LeftInverse (mapStem g) (mapStem f) := by
  intro name
  by_cases numbered : (stemEnd name).all fun c => c.isDigit || c == '_'
  · obtain ⟨own, rest⟩ := (plain _ (isStem_stem name)).append_stemEnd name
    simp only [mapStem, numbered, if_true, rest, own, undoes (stem name), stem_append_stemEnd]
  · simp only [mapStem, numbered, if_false, Bool.false_eq_true]

end Stems

/-- The renaming that comes from a permutation of names without underscores. -/
def Renaming.ofStems (stems : Equiv.Perm String) (plain : ∀ name, IsStem (stems name) ↔ IsStem name)
    (column : stems "col" = "col") (subquery : stems "with" = "with")
    : Renaming where
  names :=
    { toFun := mapStem stems
      invFun := mapStem stems.symm
      left_inv := mapStem_leftInverse (fun name => (plain name).mpr) stems.symm_apply_apply
      right_inv := by
        refine mapStem_leftInverse (fun name isStem => ?_) stems.apply_symm_apply
        exact (plain _).mp (by rwa [stems.apply_symm_apply]) }
  numbered := mapStem_numbered stems
  node := by
    change mapStem stems "anon_n" = "anon_n"
    exact if_neg (by decide)
  relationship := by
    change mapStem stems "anon_r" = "anon_r"
    exact if_neg (by decide)
  column := (mapStem_of_isStem stems (List.all_eq_true.mp (by decide))).trans column
  subquery := (mapStem_of_isStem stems (List.all_eq_true.mp (by decide))).trans subquery

namespace Cypher

/-- A word of letters that is not reserved, and not the word that columns without a name are called
by.
-/
structure IsUserName (name : String) : Prop extends IsWord name where
  unreserved : isReserved name.toList = false
  notColumn : name ≠ "col"

instance (name : String) : Decidable (IsUserName name) :=
  decidable_of_iff (IsWord name ∧ isReserved name.toList = false ∧ name ≠ "col")
    ⟨fun ⟨word, unreserved, notColumn⟩ => { word with unreserved, notColumn },
      fun isName => ⟨isName.toIsWord, isName.unreserved, isName.notColumn⟩⟩

theorem IsUserName.isStem {name : String} (isName : IsUserName name) : IsStem name := by
  intro c member
  have alpha : c.isAlpha = true := isName.letters c member
  refine bne_iff_ne.mpr ?_
  rintro rfl
  exact absurd alpha (by decide)

end Cypher

/-- Names can be exchanged for others of a kind so that each of some names becomes a given one, and
names of other kinds stay.
-/
theorem exists_perm_of_injOn {isName : String → Prop} {names : List String} {f : String → String}
    (given : ∀ name ∈ names, isName name) (new : ∀ name ∈ names, isName (f name))
    (injective : Set.InjOn f { name | name ∈ names })
    : ∃ permuted : Equiv.Perm String,
        (∀ name ∈ names, permuted name = f name)
        ∧ (∀ name, isName (permuted name) ↔ isName name)
        ∧ ∀ name, ¬ isName name → permuted name = name := by
  -- the names and the new ones are finitely many, and exchanged among each other
  let all : Finset String := (names ++ names.map f).toFinset
  have allNames : ∀ name ∈ all, isName name := by
    intro name member
    rcases List.mem_append.mp (List.mem_toFinset.mp member) with old | other
    · exact given name old
    · obtain ⟨old, isOld, rfl⟩ := List.mem_map.mp other
      exact new old isOld
  have within : Set.MapsTo (fun name : all => f name) { name : all | name.1 ∈ names } all := by
    intro name member
    exact List.mem_toFinset.mpr (List.mem_append_right _ (List.mem_map_of_mem member))
  have apart : Set.InjOn (fun name : all => f name) { name : all | name.1 ∈ names } :=
    fun left old right oldRight same => Subtype.ext (injective old oldRight same)
  obtain ⟨extended, agrees⟩ := within.exists_equiv_extend_of_card_eq (Fintype.card_coe all) apart
  have outside {name : String} (other : name ∉ all) : Equiv.Perm.ofSubtype extended name = name :=
    Equiv.Perm.ofSubtype_apply_of_not_mem extended other
  have inside {name : String} (member : name ∈ all)
      : Equiv.Perm.ofSubtype extended name = extended ⟨name, member⟩ :=
    Equiv.Perm.ofSubtype_apply_of_mem extended member
  refine ⟨Equiv.Perm.ofSubtype extended, fun name old => ?_, fun name => ?_, fun name other => ?_⟩
  · have member : name ∈ all := List.mem_toFinset.mpr (List.mem_append_left _ old)
    rw [inside member]
    exact agrees ⟨name, member⟩ old
  · by_cases member : name ∈ all
    · rw [inside member]
      exact iff_of_true (allNames _ (extended ⟨name, member⟩).2) (allNames name member)
    · rw [outside member]
  · exact outside fun member => other (allNames name member)

/-- Every injective choice of other names is part of a renaming. -/
theorem exists_renaming_of_injOn {names : List String} {f : String → String}
    (given : ∀ name ∈ names, Cypher.IsUserName name)
    (new : ∀ name ∈ names, Cypher.IsUserName (f name))
    (injective : Set.InjOn f { name | name ∈ names })
    : ∃ ρ : Renaming, ∀ name ∈ names, ρ name = f name := by
  obtain ⟨permuted, agrees, kinds, others⟩ := exists_perm_of_injOn given new injective
  have plain (name : String) : IsStem (permuted name) ↔ IsStem name := by
    by_cases isName : Cypher.IsUserName name
    · exact iff_of_true ((kinds name).mpr isName).isStem isName.isStem
    · rw [others name isName]
  refine ⟨.ofStems permuted plain (others _ (by decide)) (others _ (by decide)),
    fun name member => ?_⟩
  exact (mapStem_of_isStem permuted (given name member).isStem).trans (agrees name member)

namespace Cypher

mutual

/-- The names of the variables that an expression reads. -/
def Expr.variableNames : Expr → List String
  | .literal _ => []
  | .var name => [name]
  | .parameter _ => []
  | .list items => Expr.variableNamesAll items
  | .map entries => Expr.variableNamesEntries entries
  | .property base _ => base.variableNames
  | .unary _ operand => operand.variableNames
  | .binary _ left right => left.variableNames ++ right.variableNames
  | .call _ _ args => Expr.variableNamesAll args
  | .star => []

/-- The names of the variables that several expressions read. -/
def Expr.variableNamesAll : List Expr → List String
  | [] => []
  | e :: es => e.variableNames ++ Expr.variableNamesAll es

/-- The names of the variables that the values of several entries read. -/
def Expr.variableNamesEntries : List (String × Expr) → List String
  | [] => []
  | (_, e) :: es => e.variableNames ++ Expr.variableNamesEntries es

end

/-- The names of the variables that an expression reads, if there is one. -/
def optionVariableNames (expr : Option Expr) : List String :=
  expr.toList.flatMap Expr.variableNames

/-- The names of the variables in a property map. -/
def propertyVariableNames (properties : Properties) : List String :=
  properties.toList.flatMap Expr.variableNamesEntries

def NodePattern.variableNames (pattern : NodePattern) : List String :=
  pattern.name.toList ++ propertyVariableNames pattern.properties

def RelationshipPattern.variableNames (pattern : RelationshipPattern) : List String :=
  pattern.name.toList ++ propertyVariableNames pattern.properties

def PathPattern.variableNames (path : PathPattern) : List String :=
  path.name.toList ++ path.start.variableNames
    ++ path.hops.flatMap fun (relationship, node) =>
      relationship.variableNames ++ node.variableNames

def MatchClause.variableNames (clause : MatchClause) : List String :=
  clause.patterns.flatMap PathPattern.variableNames ++ optionVariableNames clause.condition

def Projection.variableNames (projection : Projection) : List String :=
  (projection.items.flatMap fun item => item.expr.variableNames ++ item.aliasName.toList)
    ++ projection.orderBy.flatMap (·.expr.variableNames)
    ++ optionVariableNames projection.skip
    ++ optionVariableNames projection.limit

def Clause.variableNames : Clause → List String
  | .matching clause => clause.variableNames
  | .withItems projection condition => projection.variableNames ++ optionVariableNames condition
  | .returnItems projection => projection.variableNames

/-- The names of the variables of a query: those that it gives and those that it reads. -/
def Query.variableNames (query : Query) : List String :=
  query.clauses.flatMap Clause.variableNames

/-- Other names that agree on the variables that are read lead to the same parts. -/
theorem map_congr_names {α β : Type} {items : List α} {names : α → List String}
    {r : (String → String) → α → β} {f g : String → String}
    (each : ∀ item, (∀ name ∈ names item, f name = g name) → r f item = r g item)
    (same : ∀ name ∈ items.flatMap names, f name = g name)
    : items.map (r f) = items.map (r g) :=
  List.map_congr_left fun item member =>
    each item fun name inside => same name (List.mem_flatMap.mpr ⟨item, member, inside⟩)

theorem option_map_congr_names {α β : Type} {value : Option α} {names : α → List String}
    {r : (String → String) → α → β} {f g : String → String}
    (each : ∀ item, (∀ name ∈ names item, f name = g name) → r f item = r g item)
    (same : ∀ name ∈ value.toList.flatMap names, f name = g name)
    : value.map (r f) = value.map (r g) := by
  cases value with
  | none => rfl
  | some item => exact congrArg some (each item (by simpa using same))

variable {f g : String → String}

mutual

/-- Only the names of the variables that are read matter, by induction over the expression. -/
theorem Expr.rename_congr
    : ∀ expr : Expr, (∀ name ∈ expr.variableNames, f name = g name) → expr.rename f = expr.rename g
  | .literal _, _ => rfl
  | .var name, same => congrArg Expr.var (same name (List.mem_singleton_self name))
  | .parameter _, _ => rfl
  | .list items, same => congrArg Expr.list (Expr.renameAll_congr items same)
  | .map entries, same => congrArg Expr.map (Expr.renameEntries_congr entries same)
  | .property base key, same => congrArg (Expr.property · key) (base.rename_congr same)
  | .unary op operand, same => congrArg (Expr.unary op) (operand.rename_congr same)
  | .binary op left right, same => by
      obtain ⟨sameLeft, sameRight⟩ := List.forall_mem_append.mp same
      rw [Expr.rename, Expr.rename, left.rename_congr sameLeft, right.rename_congr sameRight]
  | .call name distinct args, same =>
      congrArg (Expr.call name distinct) (Expr.renameAll_congr args same)
  | .star, _ => rfl

/-- The same for several expressions. -/
theorem Expr.renameAll_congr
    : ∀ exprs : List Expr,
        (∀ name ∈ Expr.variableNamesAll exprs, f name = g name)
        → Expr.renameAll f exprs = Expr.renameAll g exprs
  | [], _ => rfl
  | expr :: rest, same => by
      obtain ⟨sameFirst, sameRest⟩ := List.forall_mem_append.mp same
      rw [Expr.renameAll, Expr.renameAll, expr.rename_congr sameFirst,
        Expr.renameAll_congr rest sameRest]

/-- The same for several entries. -/
theorem Expr.renameEntries_congr
    : ∀ entries : List (String × Expr),
        (∀ name ∈ Expr.variableNamesEntries entries, f name = g name)
        → Expr.renameEntries f entries = Expr.renameEntries g entries
  | [], _ => rfl
  | (_, expr) :: rest, same => by
      obtain ⟨sameFirst, sameRest⟩ := List.forall_mem_append.mp same
      rw [Expr.renameEntries, Expr.renameEntries, expr.rename_congr sameFirst,
        Expr.renameEntries_congr rest sameRest]

end

theorem optionName_congr {name : Option String} (same : ∀ given ∈ name.toList, f given = g given)
    : name.map f = name.map g := by
  cases name with
  | none => rfl
  | some name => exact congrArg some (same name (by simp))

theorem NodePattern.rename_congr (pattern : NodePattern)
    (same : ∀ name ∈ pattern.variableNames, f name = g name)
    : pattern.rename f = pattern.rename g := by
  obtain ⟨own, inside⟩ := List.forall_mem_append.mp same
  rw [NodePattern.rename, NodePattern.rename, optionName_congr own,
    option_map_congr_names (fun entries => Expr.renameEntries_congr entries) inside]

theorem RelationshipPattern.rename_congr (pattern : RelationshipPattern)
    (same : ∀ name ∈ pattern.variableNames, f name = g name)
    : pattern.rename f = pattern.rename g := by
  obtain ⟨own, inside⟩ := List.forall_mem_append.mp same
  rw [RelationshipPattern.rename, RelationshipPattern.rename, optionName_congr own,
    option_map_congr_names (fun entries => Expr.renameEntries_congr entries) inside]

theorem PathPattern.rename_congr (path : PathPattern)
    (same : ∀ name ∈ path.variableNames, f name = g name)
    : path.rename f = path.rename g := by
  obtain ⟨first, hops⟩ := List.forall_mem_append.mp same
  obtain ⟨own, start⟩ := List.forall_mem_append.mp first
  have eachHop (hop : RelationshipPattern × NodePattern)
      (same : ∀ name ∈ hop.1.variableNames ++ hop.2.variableNames, f name = g name)
      : (hop.1.rename f, hop.2.rename f) = (hop.1.rename g, hop.2.rename g) := by
    obtain ⟨relationship, node⟩ := List.forall_mem_append.mp same
    rw [hop.1.rename_congr relationship, hop.2.rename_congr node]
  have hops := map_congr_names (r := fun f hop => (hop.1.rename f, hop.2.rename f)) eachHop hops
  rw [PathPattern.rename, PathPattern.rename, optionName_congr own, path.start.rename_congr start]
  exact congrArg _ hops

theorem MatchClause.rename_congr (clause : MatchClause)
    (same : ∀ name ∈ clause.variableNames, f name = g name)
    : clause.rename f = clause.rename g := by
  obtain ⟨patterns, condition⟩ := List.forall_mem_append.mp same
  rw [MatchClause.rename, MatchClause.rename, map_congr_names PathPattern.rename_congr patterns,
    option_map_congr_names Expr.rename_congr condition]

theorem Projection.rename_congr (projection : Projection)
    (same : ∀ name ∈ projection.variableNames, f name = g name)
    : projection.rename f = projection.rename g := by
  obtain ⟨others, limit⟩ := List.forall_mem_append.mp same
  obtain ⟨others, skip⟩ := List.forall_mem_append.mp others
  obtain ⟨items, orderBy⟩ := List.forall_mem_append.mp others
  have eachItem (item : ProjectionItem)
      (same : ∀ name ∈ item.expr.variableNames ++ item.aliasName.toList, f name = g name)
      : item.rename f = item.rename g := by
    obtain ⟨read, given⟩ := List.forall_mem_append.mp same
    rw [ProjectionItem.rename, ProjectionItem.rename, item.expr.rename_congr read,
      optionName_congr given]
  have eachKey (key : SortItem) (same : ∀ name ∈ key.expr.variableNames, f name = g name)
      : key.rename f = key.rename g := by
    rw [SortItem.rename, SortItem.rename, key.expr.rename_congr same]
  rw [Projection.rename, Projection.rename, map_congr_names eachItem items,
    map_congr_names eachKey orderBy, option_map_congr_names Expr.rename_congr skip,
    option_map_congr_names Expr.rename_congr limit]

theorem Clause.rename_congr (clause : Clause)
    (same : ∀ name ∈ clause.variableNames, f name = g name)
    : clause.rename f = clause.rename g := by
  cases clause with
  | matching clause => exact congrArg Clause.matching (clause.rename_congr same)
  | withItems projection condition =>
      obtain ⟨projected, filter⟩ := List.forall_mem_append.mp same
      rw [Clause.rename, Clause.rename, projection.rename_congr projected,
        option_map_congr_names Expr.rename_congr filter]
  | returnItems projection => exact congrArg Clause.returnItems (projection.rename_congr same)

/-- Other names that agree on the variables of a query lead to the same query. -/
theorem Query.rename_congr (query : Query) (same : ∀ name ∈ query.variableNames, f name = g name)
    : query.rename f = query.rename g :=
  congrArg Query.mk (map_congr_names Clause.rename_congr same)

end Cypher

end CypherSql
