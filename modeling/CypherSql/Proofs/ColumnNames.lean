import CypherSql.Proofs.Collection.Declarations
import CypherSql.Proofs.Exports.Handover
import CypherSql.Proofs.QuotedTokens
import CypherSql.Proofs.SubqueryColumns
import Mathlib.Data.List.Chain
import Mathlib.Data.List.Nodup

/-! The names of the columns of a subquery. No subquery exports a variable twice, so the columns for
its variables differ from each other. A column for a property has the id of the variable and the key
in its name, with two underscores between them, so it can only be mistaken for another one where a
name of the query has two underscores too.
-/

namespace CypherSql.Plan

section Types

variable {vars : VarTable} {id : VarId}

theorem VarTable.StandsForNode.type?_eq (stands : vars.StandsForNode id)
    : vars.type? id = some .node := by
  obtain ⟨node, found⟩ := stands
  rw [VarTable.type?, VarTable.node?_eq_some.mp found]
  rfl

/-- The elements of a chain are no values, by induction over its hops. -/
theorem VarTable.Chain.type?_ne_scalar {elements : List VarId} (chain : vars.Chain elements)
    (member : id ∈ elements)
    : vars.type? id ≠ some .scalar := by
  have ofNode {id : VarId} (stands : vars.StandsForNode id) : vars.type? id ≠ some .scalar := by
    rw [stands.type?_eq]
    decide
  fun_induction VarTable.Chain vars elements with
  | case1 node =>
      obtain rfl := List.mem_singleton.mp member
      exact ofNode chain
  | case2 left relationship right rest ih =>
      obtain ⟨start, ⟨rel, found, -⟩, chain⟩ := chain
      rcases List.mem_cons.mp member with rfl | member
      · exact ofNode start
      · rcases List.mem_cons.mp member with rfl | member
        · exact VarTable.IsElement.type?_ne_scalar
            ⟨.relationship rel, VarTable.relationship?_eq_some.mp found, rfl⟩
        · exact ih chain member
  | case3 => exact chain.elim

/-- How a variable is exported by its type: as a value, or with its properties. -/
def VarTable.exported (vars : VarTable) (id : VarId) : Export :=
  if vars.type? id = some .scalar then .scalar id else .entity id

/-- What is exported is declared, and exported by its type. -/
theorem exportsOf_typed {exports : List Export} (linked : vars.Linked)
    (succeeded : exportsOf vars id = .ok exports) {exported : Export} (member : exported ∈ exports)
    : (vars.get? exported.id).isSome ∧ exported = vars.exported exported.id := by
  unfold exportsOf at succeeded
  split at succeeded
  · cases succeeded
  · rename_i hops elements found
    obtain rfl := Except.ok.inj succeeded
    obtain ⟨element, inside, rfl⟩ := List.mem_map.mp member
    obtain ⟨var, present, definition⟩ := VarTable.definition?_eq_some.mp found
    obtain ⟨-, chain⟩ : elements.length = 2 * hops + 1 ∧ vars.Chain elements := by
      have here := linked present
      rwa [definition] at here
    exact ⟨chain.isSome inside, (if_neg (chain.type?_ne_scalar inside)).symm⟩
  · rename_i definition noPath found
    obtain ⟨var, present, -⟩ := VarTable.definition?_eq_some.mp found
    have single {kept : Export} (same : kept = vars.exported id)
        (succeeded : [kept] = exports)
        : (vars.get? exported.id).isSome ∧ exported = vars.exported exported.id := by
      obtain rfl : exported = vars.exported id := by simpa [← succeeded, same] using member
      have own : (vars.exported id).id = id := by
        unfold VarTable.exported
        split <;> rfl
      rw [own]
      exact ⟨by simp [present], rfl⟩
    split at succeeded
    · rename_i type
      exact single (by simp [VarTable.exported, type]) (Except.ok.inj succeeded)
    · rename_i type
      exact single (by simp [VarTable.exported, type]) (Except.ok.inj succeeded)
    · rename_i type
      exact single (by simp [VarTable.exported, type]) (Except.ok.inj succeeded)
    · cases succeeded

end Types

/-- The subquery exports each of its variables once, and only declared ones. -/
structure Subquery.ExportsOnce (declared : List VarId) (subquery : Subquery) : Prop where
  distinct : (subquery.exports.map (·.id)).Nodup
  declared : ∀ exported ∈ subquery.exports, exported.id ∈ declared

variable {declared : List VarId}

/-- What subqueries export is exported once when it is found: types tell values and others apart. -/
theorem findExports_once {draft later : Draft} (coherent : draft.vars.Coherent declared)
    (succeeded : findExports draft = .ok later)
    : ∀ subquery ∈ later.tree.subqueries, subquery.ExportsOnce declared := by
  obtain ⟨order, kept, ordered⟩ := coherent.inOrder
  obtain ⟨subqueries, found, same⟩ := bind_eq_ok.mp succeeded
  obtain rfl := Except.ok.inj same
  intro subquery member
  obtain ⟨position, at'⟩ := List.mem_iff_getElem?.mp member
  obtain ⟨old, -, succeeded⟩ :=
    forall₂_getElem?_right (Modality.forall₂_of_mapM_eq_ok found) at'
  unfold subqueryExports at succeeded
  split at succeeded
  · cases succeeded
  · obtain ⟨ids, -, succeeded⟩ := bind_eq_ok.mp succeeded
    obtain ⟨exports, each, same⟩ := bind_eq_ok.mp succeeded
    obtain rfl := Except.ok.inj same
    have typed {exported : Export} (listed : exported ∈ addNewExports [] exports.flatten)
        : (draft.vars.get? exported.id).isSome
          ∧ exported = draft.vars.exported exported.id := by
      obtain ⟨own, inAll, inside⟩ := List.mem_flatten.mp
        ((mem_foldl_new.mp listed).resolve_left (by simp))
      obtain ⟨position, at'⟩ := List.mem_iff_getElem?.mp inAll
      obtain ⟨id, -, succeeded⟩ :=
        forall₂_getElem?_right (Modality.forall₂_of_mapM_eq_ok each) at'
      exact exportsOf_typed coherent.linked succeeded inside
    refine ⟨?_, fun exported listed => kept.subset ((ordered.declared _).mpr (typed listed).1)⟩
    refine List.Nodup.map_on ?_ (nodup_foldl_new List.nodup_nil)
    intro left inLeft right inRight same
    rw [(typed inLeft).2, (typed inRight).2, same]

/-- Simplification drops exports, and adds none. -/
theorem lasting_exportsOnce (declared : List VarId)
    : Draft.Lasting fun draft =>
        ∀ subquery ∈ draft.tree.subqueries, subquery.ExportsOnce declared where
  rewrite := by
    intro draft later once maps _ subquery member
    obtain ⟨position, found⟩ := List.mem_iff_getElem?.mp member
    obtain ⟨before, found', related⟩ := maps.getElem? found
    obtain ⟨distinct, declared⟩ := once before (List.mem_of_getElem? found')
    exact ⟨related.exports ▸ distinct, related.exports ▸ declared⟩
  drop := by
    intro draft source id once _ _ subquery member
    obtain ⟨middle, inMiddle, rfl⟩ := List.mem_map.mp member
    obtain ⟨old, present, exports⟩ : ∃ old ∈ draft.tree.subqueries,
        middle.exports.Sublist old.exports := by
      obtain ⟨position, at'⟩ := List.mem_iff_getElem?.mp inMiddle
      rw [List.getElem?_modify] at at'
      obtain ⟨old, found, rfl⟩ := Option.map_eq_some_iff.mp at'
      refine ⟨old, List.mem_of_getElem? found, ?_⟩
      split
      · exact List.filter_sublist
      · exact .refl _
    obtain ⟨distinct, declared⟩ := once old present
    exact ⟨distinct.sublist (exports.map _),
      fun exported listed => declared exported (exports.subset listed)⟩

end CypherSql.Plan

namespace CypherSql.Sql

/-- The name has no two underscores beside each other, and none at its end. So before two
underscores it can be told where it ends.
-/
def Unseparated (name : String) : Prop :=
  (name.toList ++ ['_']).IsChain fun first second => ¬ (first = '_' ∧ second = '_')

instance (name : String) : Decidable (Unseparated name) :=
  inferInstanceAs (Decidable (List.IsChain _ _))

/-- What has two underscores beside each other is separated. -/
theorem not_unseparated {name : String} {before after : List Char}
    (split : name.toList = before ++ '_' :: '_' :: after)
    : ¬ Unseparated name := by
  rw [Unseparated, split, List.append_assoc, List.cons_append, List.cons_append,
    List.isChain_append_cons_cons]
  exact fun ⟨_, apart, _⟩ => apart ⟨rfl, rfl⟩

theorem not_unseparated_of_last {name : String} {before : List Char}
    (split : name.toList = before ++ ['_'])
    : ¬ Unseparated name := by
  rw [Unseparated, split, List.append_assoc, List.singleton_append, List.isChain_append_cons_cons]
  exact fun ⟨_, apart, _⟩ => apart ⟨rfl, rfl⟩

/-- A chain goes on through characters other than underscores, by induction over them. -/
theorem isChain_noUnderscores {letters : List Char} (others : ∀ c ∈ letters, c ≠ '_')
    : (letters ++ ['_']).IsChain fun first second => ¬ (first = '_' ∧ second = '_') := by
  induction letters with
  | nil => exact .singleton _
  | cons c rest ih =>
      have follows := ih fun other member => others other (List.mem_cons_of_mem _ member)
      have apart : c ≠ '_' := others c (List.mem_cons_self ..)
      cases rest with
      | nil => exact .cons_cons (fun both => apart both.1) follows
      | cons d rest => exact .cons_cons (fun both => apart both.1) follows

/-- A number after one underscore does not separate. -/
theorem Unseparated.numbered {base : String} (unseparated : Unseparated base) (n : Nat)
    : Unseparated (base ++ "_" ++ toString n) := by
  have others : ∀ c ∈ Nat.toDigits 10 n, c ≠ '_' := by
    rintro c member rfl
    have isDigit : Char.isDigit '_' = true :=
      Nat.isDigit_of_mem_toDigits (by decide) (by decide) member
    exact absurd isDigit (by decide)
  have split : (base ++ "_" ++ toString n).toList ++ ['_']
      = base.toList ++ '_' :: (Nat.toDigits 10 n ++ ['_']) := by
    simp
  rw [Unseparated, split, List.isChain_split]
  refine ⟨unseparated, ?_⟩
  have follows := isChain_noUnderscores others
  cases written : Nat.toDigits 10 n with
  | nil => exact absurd written Nat.toDigits_ne_nil
  | cons digit rest =>
      rw [written] at follows others
      exact .cons_cons (fun both => others digit (List.mem_cons_self ..) both.2) follows

theorem propertyColumn_toList (id key : String)
    : (propertyColumn id key).toList = id.toList ++ '_' :: '_' :: key.toList := by
  simp [propertyColumn]

/-- What a name has before two underscores is no more than another unseparated name. -/
theorem Unseparated.eq_nil_of_append {name : String} {before more first second : List Char}
    (unseparated : Unseparated name) (longer : name.toList = before ++ more)
    (same : '_' :: '_' :: first = more ++ '_' :: '_' :: second)
    : more = [] := by
  cases more with
  | nil => rfl
  | cons c rest =>
      cases rest with
      | nil =>
          obtain rfl : '_' = c := by simpa using congrArg List.head? same
          exact absurd unseparated (not_unseparated_of_last longer)
      | cons d rest =>
          obtain ⟨rfl, rfl⟩ : '_' = c ∧ '_' = d := by simpa using congrArg (List.take 2) same
          exact absurd unseparated (not_unseparated longer)

/-- The column for a property of an unseparated variable shows the variable and the key. -/
theorem propertyColumn_injective {id other key otherKey : String} (unseparated : Unseparated id)
    (otherUnseparated : Unseparated other)
    (same : propertyColumn id key = propertyColumn other otherKey)
    : id = other ∧ key = otherKey := by
  have chars : id.toList ++ '_' :: '_' :: key.toList
      = other.toList ++ '_' :: '_' :: otherKey.toList := by
    simpa only [propertyColumn_toList] using congrArg String.toList same
  have ids : id = other := by
    rcases List.append_eq_append_iff.mp chars with ⟨more, longer, rest⟩ | ⟨more, longer, rest⟩
    · have none := otherUnseparated.eq_nil_of_append longer rest
      rw [none, List.append_nil] at longer
      exact (String.toList_inj.mp longer).symm
    · have none := unseparated.eq_nil_of_append longer rest
      rw [none, List.append_nil] at longer
      exact String.toList_inj.mp longer
  subst ids
  have keys := List.append_cancel_left chars
  simp only [List.cons.injEq, true_and] at keys
  exact ⟨rfl, String.toList_inj.mp keys⟩

/-- It is no unseparated name itself. -/
theorem propertyColumn_ne {id key other : String} (unseparated : Unseparated other)
    : propertyColumn id key ≠ other := by
  rintro rfl
  exact not_unseparated (propertyColumn_toList id key) unseparated

end CypherSql.Sql

namespace CypherSql.Plan

/-- Ids that are made from unseparated names are unseparated. -/
theorem Walk.MadeFrom.unseparated {base : String} {id : VarId} (made : Walk.MadeFrom base id)
    (unseparated : Sql.Unseparated base)
    : Sql.Unseparated id := by
  rcases made with rfl | ⟨n, rfl⟩
  · exact unseparated
  · exact unseparated.numbered n

/-- The variable that a column is for. -/
def Column.id : Column → VarId
  | .value id => id
  | .property id _ => id

theorem Export.id_of_mem_columns {vars : VarTable} {scope : Nat} {exported : Export}
    {column : Column}
    (member : column ∈ exported.columns vars scope)
    : column.id = exported.id := by
  cases exported with
  | entity id =>
      rcases List.mem_cons.mp member with rfl | property
      · rfl
      · obtain ⟨key, -, rfl⟩ := List.mem_map.mp property
        rfl
  | scalar id =>
      obtain rfl := List.mem_singleton.mp member
      rfl

theorem VarTable.readAfter_nodup (vars : VarTable) (id : VarId) (scope : Nat)
    : (vars.readAfter id scope).Nodup :=
  (vars.required id).keys_nodup.sublist (List.filter_sublist.map _)

theorem Export.columns_nodup (vars : VarTable) (scope : Nat) (exported : Export)
    : (exported.columns vars scope).Nodup := by
  cases exported with
  | entity id =>
      refine List.nodup_cons.mpr ⟨by simp, (vars.readAfter_nodup id scope).map ?_⟩
      intro first second same
      exact (Column.property.inj same).2
  | scalar id => exact List.nodup_singleton _

namespace Subquery

variable {vars : VarTable} {subquery : Subquery} {declared : List VarId}

/-- The column for some property has the name of another column. -/
def Clashes (vars : VarTable) (subquery : Subquery) : Prop :=
  ∃ id key,
    .property id key ∈ subquery.columns vars
    ∧ ∃ column ∈ subquery.columns vars,
        column ≠ .property id key ∧ column.name = Sql.propertyColumn id key

/-- A subquery that exports every variable once has no column twice. -/
theorem ExportsOnce.columns_nodup (once : subquery.ExportsOnce declared)
    : (subquery.columns vars).Nodup := by
  refine List.nodup_flatMap.mpr ⟨fun exported _ => exported.columns_nodup vars _, ?_⟩
  refine (List.pairwise_map.mp once.distinct).imp ?_
  intro first second different column inFirst inSecond
  exact different
    ((Export.id_of_mem_columns inFirst).symm.trans (Export.id_of_mem_columns inSecond))

/-- Its columns have different names unless one of them is for a property whose name is that of
another: ids differ from each other.
-/
theorem ExportsOnce.names_nodup_iff (once : subquery.ExportsOnce declared)
    : ((subquery.columns vars).map Column.name).Nodup ↔ ¬ subquery.Clashes vars := by
  constructor
  · rintro distinct ⟨id, key, member, column, other, different, same⟩
    exact different (List.inj_on_of_nodup_map distinct other member same)
  · intro noClash
    refine List.Nodup.map_on ?_ once.columns_nodup
    intro first inFirst second inSecond same
    cases first with
    | property id key =>
        by_contra different
        exact noClash ⟨id, key, inFirst, second, inSecond, Ne.symm different, same.symm⟩
    | value id =>
        cases second with
        | property other key =>
            exact absurd ⟨other, key, inSecond, .value id, inFirst, by simp, same⟩ noClash
        | value other => exact congrArg Column.value same

/-- Every column is for a declared variable. -/
theorem ExportsOnce.id_mem (once : subquery.ExportsOnce declared) {column : Column}
    (member : column ∈ subquery.columns vars)
    : column.id ∈ declared := by
  obtain ⟨exported, listed, inside⟩ := List.mem_flatMap.mp member
  rw [Export.id_of_mem_columns inside]
  exact once.declared exported listed

/-- Where all ids are unseparated, no two columns clash. -/
theorem ExportsOnce.not_clashes (once : subquery.ExportsOnce declared)
    (unseparated : ∀ id ∈ declared, Sql.Unseparated id)
    : ¬ subquery.Clashes vars := by
  rintro ⟨id, key, member, column, other, different, same⟩
  have isId : Sql.Unseparated column.id := unseparated _ (once.id_mem other)
  cases column with
  | value otherId => exact Sql.propertyColumn_ne isId same.symm
  | property otherId otherKey =>
      obtain ⟨rfl, rfl⟩ :=
        Sql.propertyColumn_injective isId (unseparated id (once.id_mem member)) same
      exact different rfl

end Subquery

/-- The subqueries of a lowered query export every variable once. -/
theorem lower_exportsOnce {catalog : Catalog} {query : Cypher.Query} {walk : Walk}
    {lowered : Lowered}
    (collected : collect query = .ok walk) (succeeded : lower catalog query = .ok lowered)
    : ∀ subquery ∈ lowered.tree.subqueries, subquery.ExportsOnce walk.declared := by
  obtain ⟨start, arranged, exported, simple, begins, arranges, finds, simplifies, -, tree, -⟩ :=
    exists_of_lower succeeded
  have coherent := coherent_of_runSteps collected begins (by decide) arranges
  have once :=
    (lasting_exportsOnce walk.declared).simplified (findExports_once coherent finds) simplifies
  intro subquery member
  obtain ⟨maps, -⟩ := simple.finished_alike
  obtain ⟨position, found⟩ := List.mem_iff_getElem?.mp (tree ▸ member)
  obtain ⟨before, found', related⟩ := maps.getElem? found
  obtain ⟨distinct, declared⟩ := once before (List.mem_of_getElem? found')
  exact ⟨related.exports ▸ distinct, related.exports ▸ declared⟩

/-- The columns of a subquery have different names, as they are written in its select, exactly if no
column for a property has the name of another column. That is so in particular where no name that
the query gives has two underscores beside each other or one at its end.
-/
theorem columnNames_distinct_iff {catalog : Catalog} {query : Cypher.Query} {lowered : Lowered}
    (succeeded : lower catalog query = .ok lowered)
    : ∀ subquery ∈ lowered.tree.subqueries,
        ((∀ name ∈ query.names, Sql.Unseparated name) → ¬ subquery.Clashes lowered.vars)
        ∧ ∀ written select,
            Sql.scopeSelect
              (Sql.contextOf lowered.tree.subqueries lowered.vars subquery.scope) written
                subquery.scope (some subquery.exports) true
              = .ok select
            → ((select.entries.map fun entry => Sql.identifier entry.name).Nodup
              ↔ ¬ subquery.Clashes lowered.vars) := by
  intro subquery member
  obtain ⟨start, -, -, -, begins, -⟩ := exists_of_lower succeeded
  obtain ⟨walk, collected, -⟩ := QueryModel.exists_of_ofQuery begins
  have once := lower_exportsOnce collected succeeded subquery member
  refine ⟨fun named => once.not_clashes fun id isDeclared => ?_, fun written select isSelect => ?_⟩
  · have proceeds : Walk.start.Proceeds Sql.Unseparated walk :=
      collect_proceeds (by decide) named collected
    obtain ⟨base, unseparated, made⟩ := (proceeds.madeFrom isDeclared).resolve_left List.not_mem_nil
    exact made.unseparated unseparated
  · have names := Sql.scopeSelect_names isSelect
    have written : select.entries.map (fun entry => Sql.identifier entry.name)
        = (select.entries.map (·.name)).map Sql.identifier := by
      rw [List.map_map]
      rfl
    rw [written, List.nodup_map_iff fun _ _ => Sql.identifier_injective, names]
    exact once.names_nodup_iff

/-- Witness: a query whose names are unseparated, though not all of its columns are for values. -/
theorem namesPassedOn_columnNames
    : ∃ lowered subquery select,
        lower acquaintances.catalog namesPassedOn = .ok lowered
        ∧ subquery ∈ lowered.tree.subqueries
        ∧ .property "a" "name" ∈ subquery.columns lowered.vars
        ∧ Sql.scopeSelect (Sql.contextOf lowered.tree.subqueries lowered.vars subquery.scope)
            (Sql.writtenSubqueries lowered.tree lowered.vars) subquery.scope (some subquery.exports)
            true
          = .ok select
        ∧ (select.entries.map fun entry => Sql.identifier entry.name).Nodup := by
  have reached : ((lower acquaintances.catalog namesPassedOn).toOption.any fun lowered =>
      ∃ subquery ∈ lowered.tree.subqueries,
        .property "a" "name" ∈ subquery.columns lowered.vars
        ∧ (Sql.scopeSelect (Sql.contextOf lowered.tree.subqueries lowered.vars subquery.scope)
            (Sql.writtenSubqueries lowered.tree lowered.vars) subquery.scope (some subquery.exports)
            true).isOk) = true := by
    decide +kernel
  obtain ⟨lowered, succeeded, reached⟩ := (Option.any_eq_true _ _).mp reached
  obtain ⟨subquery, member, property, isOk⟩ := of_decide_eq_true reached
  have succeeded := toOption_eq_some.mp succeeded
  cases selects : Sql.scopeSelect
      (Sql.contextOf lowered.tree.subqueries lowered.vars subquery.scope)
      (Sql.writtenSubqueries lowered.tree lowered.vars) subquery.scope
        (some subquery.exports) true with
  | error => simp [selects, Except.isOk, Except.toBool] at isOk
  | ok select =>
      obtain ⟨noClash, distinct⟩ := columnNames_distinct_iff succeeded subquery member
      exact ⟨lowered, subquery, select, succeeded, member, property, selects,
        (distinct _ _ selects).mpr (noClash (by decide))⟩

/-- A name can be that of a column for a property: the query is written as SQL, but its subquery has
two columns of one name.
-/
theorem namedLikeProperty_notDistinct
    : ∃ query lowered sql subquery select,
        Cypher.Query.parse "MATCH (a:Person) WITH a, a.age AS a__name RETURN a.name, a__name"
          = .ok query
        ∧ lower acquaintances.catalog query = .ok lowered
        ∧ Sql.treeText lowered.tree lowered.vars = .ok sql
        ∧ subquery ∈ lowered.tree.subqueries
        ∧ Sql.scopeSelect (Sql.contextOf lowered.tree.subqueries lowered.vars subquery.scope) []
            subquery.scope (some subquery.exports) true
          = .ok select
        ∧ (select.entries.map fun entry => Sql.identifier entry.name) = ["a", "a__name", "a__name"]
        ∧ ¬ (select.entries.map fun entry => Sql.identifier entry.name).Nodup := by
  have reached : ((Cypher.Query.parse
        "MATCH (a:Person) WITH a, a.age AS a__name RETURN a.name, a__name").toOption.any
          fun query =>
      (lower acquaintances.catalog query).toOption.any fun lowered =>
        (Sql.treeText lowered.tree lowered.vars).toOption.any fun _ =>
          lowered.tree.subqueries.any fun subquery =>
            (Sql.scopeSelect (Sql.contextOf lowered.tree.subqueries lowered.vars subquery.scope) []
                subquery.scope (some subquery.exports) true).toOption.any fun select =>
              (select.entries.map fun entry => Sql.identifier entry.name)
                = ["a", "a__name", "a__name"]) = true := by
    rw [Cypher.Query.toOption_parse, String.toList_ofList]
    decide +kernel
  obtain ⟨query, parsed, reached⟩ := (Option.any_eq_true _ _).mp reached
  obtain ⟨lowered, lowers, reached⟩ := (Option.any_eq_true _ _).mp reached
  obtain ⟨sql, isText, reached⟩ := (Option.any_eq_true _ _).mp reached
  obtain ⟨subquery, member, reached⟩ := List.any_eq_true.mp reached
  obtain ⟨select, isSelect, names⟩ := (Option.any_eq_true _ _).mp reached
  exact ⟨query, lowered, sql, subquery, select, toOption_eq_some.mp parsed,
    toOption_eq_some.mp lowers, toOption_eq_some.mp isText, member, toOption_eq_some.mp isSelect,
    of_decide_eq_true names,
    by rw [of_decide_eq_true names]; decide⟩

end CypherSql.Plan
