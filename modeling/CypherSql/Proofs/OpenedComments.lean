import CypherSql.Compile
import CypherSql.Proofs.Rendering.Trees
import CypherSql.Proofs.Rendering.Written

/-! The SQL of a query opens a comment exactly if two signs meet in one of the expressions it is
written with. That happens where a minus sign is put before a constant or a definition in place of a
name.
-/

namespace CypherSql.Sql

open Plan (VarId VarTable)

/-- The expressions that a scope of a tree is written with: those of its own select, and those of
the subqueries that it reads.
-/
inductive ScopeWrites (tree : Plan.Tree) (vars : VarTable)
    : Plan.Scope → Option (List Plan.Export) → Bool → Expr → Prop where
  | own {scope exports paged expr}
    (writes : (contextOf tree.subqueries vars scope).Writes scope exports paged expr)
    : ScopeWrites tree vars scope exports paged expr
  | subquery {scope exports paged item source subquery expr} (inSelect : item ∈ scope.select.items)
    (reads : item.source = some source) (found : tree.subqueries[source]? = some subquery)
    (writes : ScopeWrites tree vars subquery.scope (some subquery.exports) true expr)
    : ScopeWrites tree vars scope exports paged expr

/-- No two signs meet in what a scope is written with. -/
def SignsApart (tree : Plan.Tree) (vars : VarTable) (scope : Plan.Scope)
    (exports : Option (List Plan.Export)) (paged : Bool)
    : Prop :=
  ∀ expr, ScopeWrites tree vars scope exports paged expr → expr.Everywhere Expr.SignApart

/-- A lowered query is plain: the names of its tables close the quotes they open, and the names of
its parameters are words.
-/
structure Plain (tree : Plan.Tree) (vars : VarTable) : Prop where
  tables
    : ∀ scope ∈ tree.scopes,
        ∀ item ∈ scope.select.items, ∀ table, item.table = some table → ClosesQuotes table
  parameters : ∀ scope ∈ tree.scopes, ∀ expr ∈ scope.expressions, ParametersNamed expr
  definitions : ∀ id expr type,
    vars.definition? id = some (.projected expr type) → ParametersNamed expr

/-- The subqueries that are written open no comment exactly if no signs meet in them. -/
def WrittenLeaves (tree : Plan.Tree) (vars : VarTable) (written : List (Except RenderError String))
    : Prop :=
  ∀ (index : Nat) (text : String) (subquery : Plan.Subquery),
    written[index]? = some (.ok text)
    → tree.subqueries[index]? = some subquery
    → Leaves text.toList (SignsApart tree vars subquery.scope (some subquery.exports) true)

section Trees

variable {tree : Plan.Tree} {vars : VarTable} {scope : Plan.Scope}
  {exports : Option (List Plan.Export)}
  {paged : Bool} {written : List (Except RenderError String)} {select : Select}

/-- The select of a scope opens no comment exactly if no signs meet in it, where that is so for the
subqueries that are written already.
-/
theorem leaves_of_scopeSelect (plain : Plain tree vars) (member : scope ∈ tree.scopes)
    (inner : WrittenLeaves tree vars written)
    (selected
      : scopeSelect (contextOf tree.subqueries vars scope) written scope exports paged = .ok select)
    : Leaves select.text.toList (SignsApart tree vars scope exports paged) := by
  have parts := selectOf_of_scopeSelect selected
  have origins := parts.origins
  have writable : ∀ expr ∈ select.exprs, expr.IsWritable := fun expr listed =>
    (parts.mem_exprs.mp listed).comes.isWritable plain.definitions (plain.parameters scope member)
  have closed : ∀ source ∈ select.origins, source.Closed := by
    intro source listed
    obtain ⟨item, inSelect, read⟩ := Plan.exists_mem_of_forall₂ origins listed
    rcases sourceOf_cases read
      with ⟨index, subquery, text, name, -, found, present, rfl⟩ | ⟨table, name, -, isTable, rfl⟩
    · exact (inner index text subquery present found).self
    · exact plain.tables scope member item inSelect table isTable
  refine (Select.leaves writable closed).congr ⟨?_, fun apart => ⟨?_, ?_⟩⟩
  · rintro ⟨own, sources⟩ expr writes
    cases writes with
    | own writes => exact own expr (parts.mem_exprs.mpr writes)
    | subquery inSelect reads found writes =>
        obtain ⟨source, listed, read⟩ := Plan.exists_mem_of_forall₂ origins.flip inSelect
        rcases sourceOf_cases read
          with ⟨index, other, text, name, isSource, foundOther, present, rfl⟩ | ⟨_, _, noSource, -⟩
        · obtain rfl := Option.some.inj (isSource.symm.trans reads)
          obtain rfl := Option.some.inj (foundOther.symm.trans found)
          have leaves := inner index text other present found
          exact leaves.not_opensComment_iff.mp (sources _ listed) expr writes
        · rw [reads] at noSource
          cases noSource
  · exact fun expr listed => apart expr (.own (parts.mem_exprs.mp listed))
  · intro source listed
    obtain ⟨item, inSelect, read⟩ := Plan.exists_mem_of_forall₂ origins listed
    rcases sourceOf_cases read
      with ⟨index, subquery, text, name, isSource, found, present, rfl⟩ | ⟨_, _, -, -, rfl⟩
    · have leaves := inner index text subquery present found
      refine leaves.not_opensComment_iff.mpr fun expr writes => ?_
      exact apart expr (.subquery inSelect isSource found writes)
    · trivial

/-- Results that are each computed from those before it, by induction over the last one. -/
theorem getElem?_foldl_append {α β : Type} (f : List β → α → β) (items : List α)
    : (items.foldl (fun results item => results ++ [f results item]) []).length = items.length
      ∧ ∀ index : Nat,
          (items.foldl (fun results item => results ++ [f results item]) [])[index]?
          = items[index]?.map
              (f
                ((items.foldl (fun results item => results ++ [f results item])
                []).take index)) := by
  induction items using List.reverseRecOn with
  | nil => simp
  | append_singleton items last ih =>
      obtain ⟨length, each⟩ := ih
      rw [List.foldl_append, List.foldl_cons, List.foldl_nil]
      generalize items.foldl (fun results item => results ++ [f results item]) [] = results at *
      refine ⟨by simp [length], fun index => ?_⟩
      rcases Nat.lt_trichotomy index items.length with before | rfl | behind
      · rw [List.getElem?_append_left (length ▸ before), List.getElem?_append_left before, each,
          List.take_append_of_le_length (length ▸ Nat.le_of_lt before)]
      · rw [← length, List.getElem?_concat_length, length, List.getElem?_concat_length, ← length,
          List.take_left]
        rfl
      · rw [List.getElem?_eq_none (by simp; omega), List.getElem?_eq_none (by simp; omega)]
        rfl

theorem getElem?_writtenSubqueries (tree : Plan.Tree) (vars : VarTable) (index : Nat)
    : (writtenSubqueries tree vars)[index]?
      = tree.subqueries[index]?.map fun subquery =>
          (scopeSelect (contextOf tree.subqueries vars subquery.scope)
              ((writtenSubqueries tree vars).take index) subquery.scope
                (some subquery.exports) true).map
            Select.text :=
  (getElem?_foldl_append _ tree.subqueries).2 index

/-- The subqueries of a plain tree open no comment exactly if no signs meet in them, by induction
over their order: each reads those before it.
-/
theorem writtenLeaves_writtenSubqueries (plain : Plain tree vars)
    : WrittenLeaves tree vars (writtenSubqueries tree vars) := by
  intro index
  induction index using Nat.strongRecOn with
  | ind index ih =>
      intro text subquery present found
      have own := getElem?_writtenSubqueries tree vars index
      rw [present, found, Option.map_some, Option.some.injEq] at own
      have member : subquery.scope ∈ tree.scopes :=
        Plan.Tree.mem_scopes.mpr (.inl ⟨subquery, List.mem_of_getElem? found, rfl⟩)
      have inner : WrittenLeaves tree vars ((writtenSubqueries tree vars).take index) := by
        intro before text subquery present found
        rw [List.getElem?_take] at present
        split at present
        · exact ih before ‹_› text subquery present found
        · cases present
      cases selected : scopeSelect (contextOf tree.subqueries vars subquery.scope)
          ((writtenSubqueries tree vars).take index) subquery.scope
            (some subquery.exports) true with
      | error error =>
          rw [selected] at own
          cases own
      | ok select =>
          rw [selected] at own
          obtain rfl := Except.ok.inj own
          exact leaves_of_scopeSelect plain member inner selected

/-- The text of a plain tree opens no comment exactly if no signs meet in it. -/
theorem leaves_of_rootText (plain : Plain tree vars) {text : String}
    (result : rootText tree vars paged = .ok text)
    : Leaves text.toList (SignsApart tree vars tree.root none paged) := by
  obtain ⟨select, selected, same⟩ := Plan.bind_eq_ok.mp result
  obtain rfl := Except.ok.inj same
  have member : tree.root ∈ tree.scopes := Plan.Tree.mem_scopes.mpr (.inr rfl)
  exact leaves_of_scopeSelect plain member (writtenLeaves_writtenSubqueries plain) selected

end Trees

/-- The expressions that merged variants are written with: those of the variants, and for a union
those that it is cut by.
-/
inductive MergedWrites : Plan.Merged → Expr → Prop where
  | single {lowered expr}
    (writes : ScopeWrites lowered.tree lowered.vars lowered.tree.root none true expr)
    : MergedWrites (.single lowered) expr
  | branch {union branch expr} (listed : branch ∈ union.branches)
    (writes : ScopeWrites branch.tree branch.vars branch.tree.root none false expr)
    : MergedWrites (.union union) expr
  | cut {union cut expr} (cuts : union.limit = some cut ∨ union.skip = some cut)
    (written
      : (contextOf union.first.tree.subqueries union.first.vars union.first.tree.root).expr cut
        = .ok expr)
    : MergedWrites (.union union) expr

/-- All merged variants are plain, and a union is cut as the first of them. -/
inductive MergedPlain : Plan.Merged → Prop where
  | single {lowered} (plain : Plain lowered.tree lowered.vars) : MergedPlain (.single lowered)
  | union {union} (plain : ∀ branch ∈ union.branches, Plain branch.tree branch.vars)
    (limit : union.limit = union.first.tree.root.limit)
    (skip : union.skip = union.first.tree.root.skip)
    : MergedPlain (.union union)

section Merged

variable {union : Plan.UnionQuery} {text : String}

/-- The column of a union is written without a sign. -/
theorem leaves_mergedColumnText (column : Plan.MergedColumn)
    : Leaves (mergedColumnText column).toList True := by
  have name := leaves_identifier column.name
  unfold mergedColumnText
  dsimp only
  split
  · rename_i merge _
    have function : merge.sqlName.toList.all isOrdinary := by cases merge <;> decide
    have argument := name.between ['('] ") AS ".toList (by decide) (by decide)
    simpa using (leaves_ordinary function).append (argument.append name)
  · exact name

/-- The variants of a union open no comment exactly if no signs meet in any of them. -/
theorem leaves_of_branches (plain : ∀ branch ∈ union.branches, Plain branch.tree branch.vars)
    {texts : List String} {separator : String} (ordinary : separator.toList.all isOrdinary)
    (result : union.branches.mapM (fun branch => rootText branch.tree branch.vars false)
      = .ok texts)
    : Leaves (String.intercalate separator texts).toList
        (∀ branch ∈ union.branches,
          SignsApart branch.tree branch.vars branch.tree.root none false) := by
  have each := Plan.Modality.forall₂_of_mapM_eq_ok result
  have leaves {branch : Plan.Lowered} {text : String} (listed : branch ∈ union.branches)
      (result : rootText branch.tree branch.vars false = .ok text)
      : Leaves text.toList (SignsApart branch.tree branch.vars branch.tree.root none false) :=
    leaves_of_rootText (plain branch listed) result
  have combined := leaves_intercalate separator id ordinary fun text (listed : text ∈ texts) => by
    obtain ⟨branch, isBranch, result⟩ := Plan.exists_mem_of_forall₂ each listed
    exact (leaves isBranch result).self
  rw [List.map_id] at combined
  refine combined.congr ⟨fun apart branch isBranch => ?_, fun apart text listed => ?_⟩
  · obtain ⟨text, listed, result⟩ := Plan.exists_mem_of_forall₂ each.flip isBranch
    exact (leaves isBranch result).not_opensComment_iff.mp (apart text listed)
  · obtain ⟨branch, isBranch, result⟩ := Plan.exists_mem_of_forall₂ each listed
    exact (leaves isBranch result).not_opensComment_iff.mpr (apart branch isBranch)

theorem leaves_mergedGroupKeys (union : Plan.UnionQuery)
    : Leaves (part " GROUP BY " ", " (mergedGroupKeys union)).toList True := by
  have each : ∀ key ∈ mergedGroupKeys union, Leaves key.toList True := by
    unfold mergedGroupKeys
    split
    · rintro _ listed
      obtain ⟨column, -, rfl⟩ := List.mem_map.mp listed
      exact leaves_identifier column.name
    · simp
  have whole := leaves_part " GROUP BY " ", " id (by decide) (by decide) each
  rw [List.map_id] at whole
  exact whole.congr (by simp)

/-- The paging of a union sorts by the names of columns, and cuts by what its first variant is cut
by.
-/
theorem leaves_mergedPaging (plain : Plain union.first.tree union.first.vars)
    (limit : union.limit = union.first.tree.root.limit)
    (skip : union.skip = union.first.tree.root.skip)
    {limits offsets : Option Expr}
    (limited
      : union.limit.mapM
        (contextOf union.first.tree.subqueries union.first.vars union.first.tree.root).expr
        = .ok limits)
    (skipped
      : union.skip.mapM
        (contextOf union.first.tree.subqueries union.first.vars union.first.tree.root).expr
        = .ok offsets)
    : Leaves
        (Paging.text
            { orderBy := union.orderBy.map fun (name, descending) => (Expr.label name, descending)
              limit := limits
              offset := offsets }).toList
        (∀ cut expr,
          union.limit = some cut ∨ union.skip = some cut
          → (contextOf union.first.tree.subqueries union.first.vars union.first.tree.root).expr cut
            = .ok expr
          → expr.Everywhere Expr.SignApart) := by
  have root :=
    Plan.Tree.mem_scopes.mpr (.inr rfl : _ ∨ union.first.tree.root = union.first.tree.root)
  have cut {source : Plan.Expr} {expr : Expr} (inRoot : source ∈ union.first.tree.root.expressions)
      (written
        : (contextOf union.first.tree.subqueries union.first.vars union.first.tree.root).expr source
          = .ok expr)
      : expr.IsWritable :=
    (Context.Comes.expression inRoot written).isWritable plain.definitions (plain.parameters _ root)
  refine (Paging.leaves ?_).congr ?_
  · simp only [Paging.exprs, List.forall_mem_append, List.forall_mem_map]
    refine ⟨⟨fun sort _ => .inr ⟨sort.1, rfl⟩, fun expr listed => ?_⟩, fun expr listed => ?_⟩
    · obtain ⟨source, isCut, written⟩ := (Context.mem_cut limited).mp listed
      exact cut (mem_expressions.mpr (.inr (.inr (.inr (.inl (limit ▸ isCut)))))) written
    · obtain ⟨source, isCut, written⟩ := (Context.mem_cut skipped).mp listed
      exact cut (mem_expressions.mpr (.inr (.inr (.inl (skip ▸ isCut))))) written
  · simp only [Paging.exprs, List.forall_mem_append, List.forall_mem_map]
    constructor
    · rintro ⟨⟨-, limits⟩, offsets⟩ source expr (isCut | isCut) written
      · exact limits expr ((Context.mem_cut limited).mpr ⟨source, isCut, written⟩)
      · exact offsets expr ((Context.mem_cut skipped).mpr ⟨source, isCut, written⟩)
    · intro apart
      refine ⟨⟨fun sort _ => trivial, fun expr listed => ?_⟩, fun expr listed => ?_⟩
      · obtain ⟨source, isCut, written⟩ := (Context.mem_cut limited).mp listed
        exact apart source expr (.inl isCut) written
      · obtain ⟨source, isCut, written⟩ := (Context.mem_cut skipped).mp listed
        exact apart source expr (.inr isCut) written

/-- A select from a union opens no comment exactly if the union opens none and no signs meet in what
it is cut by.
-/
theorem leaves_of_wrapped {combined : String} {apart : Prop} (leaves : Leaves combined.toList apart)
    (plain : Plain union.first.tree union.first.vars)
    (limit : union.limit = union.first.tree.root.limit)
    (skip : union.skip = union.first.tree.root.skip) (result : wrapped union combined = .ok text)
    : Leaves text.toList
        (apart
          ∧ ∀ cut expr,
              union.limit = some cut ∨ union.skip = some cut
              → (contextOf union.first.tree.subqueries union.first.vars
                union.first.tree.root).expr cut
                = .ok expr
              → expr.Everywhere Expr.SignApart) := by
  obtain ⟨limits, limited, result⟩ := Plan.bind_eq_ok.mp result
  obtain ⟨offsets, skipped, same⟩ := Plan.bind_eq_ok.mp result
  obtain rfl := Except.ok.inj same
  have listed := leaves_intercalate ", " mergedColumnText (by decide)
    fun column (_ : column ∈ union.columns) => leaves_mergedColumnText column
  have columns := listed.between "SELECT ".toList [] (by decide) (by simp)
  have inside := leaves.between " FROM (".toList ") AS merged".toList (by decide) (by decide)
  have whole := ((columns.append inside).append (leaves_mergedGroupKeys union)).append
    (leaves_mergedPaging plain limit skip limited skipped)
  rw [commas]
  simp only [String.toList_append, List.append_nil, List.append_assoc] at whole ⊢
  exact whole.congr (by simp)

/-- The text of merged variants opens no comment exactly if no signs meet in it. -/
theorem leaves_of_mergedText {merged : Plan.Merged} (plain : MergedPlain merged)
    (result : mergedText merged = .ok text)
    : Leaves text.toList (∀ expr, MergedWrites merged expr → expr.Everywhere Expr.SignApart) := by
  cases plain with
  | single plain =>
      refine (leaves_of_rootText plain result).congr
        ⟨fun apart expr writes => ?_, fun apart expr writes => ?_⟩
      · cases writes with
        | single writes => exact apart expr writes
      · exact apart expr (.single writes)
  | @union union plain limit skip =>
      obtain ⟨branches, written, result⟩ := Plan.bind_eq_ok.mp result
      have ordinary : (if union.all then " UNION ALL " else " UNION ").toList.all isOrdinary := by
        cases union.all <;> decide
      have combined := leaves_of_branches plain ordinary written
      have first : union.first ∈ union.branches := List.mem_cons_self
      dsimp only at result
      split at result
      · refine (leaves_of_wrapped combined (plain _ first) limit skip result).congr
          ⟨?_, fun apart => ⟨?_, ?_⟩⟩
        · rintro ⟨own, cuts⟩ expr writes
          cases writes with
          | branch listed writes => exact own _ listed expr writes
          | cut isCut written => exact cuts _ expr isCut written
        · exact fun branch listed expr writes => apart expr (.branch listed writes)
        · exact fun cut expr isCut written => apart expr (.cut isCut written)
      · rename_i whole
        obtain rfl := Except.ok.inj result
        refine combined.congr
          ⟨fun apart expr writes => ?_, fun apart branch listed expr writes => ?_⟩
        · cases writes with
          | branch listed writes => exact apart _ listed expr writes
          | cut isCut written =>
              simp only [needsWrapping, Bool.or_eq_true, not_or] at whole
              rcases isCut with isCut | isCut <;> simp [isCut] at whole
        · exact apart expr (.branch listed writes)

/-- The union of plain variants is cut as the first of them. -/
theorem mergedPlain_of_merge {unionDistinct : Bool} {variants : List Plan.Lowered}
    {merged : Plan.Merged}
    (plain : ∀ variant ∈ variants, Plain variant.tree variant.vars)
    (merges : Plan.merge unionDistinct variants = .ok merged)
    : MergedPlain merged := by
  match variants, merges with
  | [_], merges => exact Except.ok.inj merges ▸ .single (plain _ List.mem_cons_self)
  | first :: second :: rest, merges =>
      obtain ⟨union, unites, same⟩ := Plan.bind_eq_ok.mp merges
      obtain ⟨columns, -, unites⟩ := Plan.bind_eq_ok.mp unites
      obtain ⟨_, -, unites⟩ := Plan.bind_eq_ok.mp unites
      obtain ⟨orderBy, -, united⟩ := Plan.bind_eq_ok.mp unites
      obtain rfl := Except.ok.inj same
      obtain rfl := Except.ok.inj united
      exact .union plain rfl rfl

end Merged

/-- The SQL of merged variants opens a comment exactly if two signs meet in an expression that it is
written with: a minus sign is put before a negative number, or before a definition in place of a
name that starts with one. The tables of the variants have to close the quotes that their names
open, and their parameters to be words.
-/
theorem mergedText_opensComment_iff {unionDistinct : Bool} {variants : List Plan.Lowered}
    {merged : Plan.Merged} {sql : String}
    (plain : ∀ variant ∈ variants, Plain variant.tree variant.vars)
    (merges : Plan.merge unionDistinct variants = .ok merged)
    (written : mergedText merged = .ok sql)
    : OpensComment sql.toList ↔ ∃ expr,
      MergedWrites merged expr ∧ ¬expr.Everywhere Expr.SignApart := by
  rw [(leaves_of_mergedText (mergedPlain_of_merge plain merges) written).opensComment_iff]
  simp only [not_forall, exists_prop]

/-- The lowered query of `RETURN 1 - -1 AS x`. -/
def subtractedConstant : Plan.Lowered where
  tree := ⟨[], { Plan.Scope.blank .returnClause 0 with items := [.named "x"] }⟩
  vars :=
    Plan.VarTable.empty.insert
      { name := "x"
        id := "x"
        scope := 0
        definition :=
          .projected (.binary .subtraction (.literal (.integer 1))
            (.literal (.integer (-1)))) none }
  warnings := []

/-- Witness: two signs with a blank between them do not meet. -/
theorem subtractedConstant_opensComment_iff
    : mergedText (.single subtractedConstant) = .ok "SELECT 1 - -1 AS x"
      ∧ ¬OpensComment "SELECT 1 - -1 AS x".toList
      ∧ ∀ expr, MergedWrites (.single subtractedConstant) expr
        → expr.Everywhere Expr.SignApart := by
  have plain : Plain subtractedConstant.tree subtractedConstant.vars := by
    have noExpressions : ∀ scope ∈ subtractedConstant.tree.scopes,
      scope.expressions = [] := by decide
    refine ⟨by decide, fun scope member expr listed => ?_,
      fun id expr type defined name member => ?_⟩
    · rw [noExpressions scope member] at listed
      cases listed
    · simp only [subtractedConstant, Plan.VarTable.definition?, Plan.VarTable.get?_insert]
        at defined
      split at defined
      · obtain ⟨rfl, -⟩ := Plan.Definition.projected.inj (Option.some.inj defined)
        simp [Plan.Expr.parts] at member
      · cases defined
  have written : mergedText (.single subtractedConstant) = .ok "SELECT 1 - -1 AS x" := by
    rfl
  have apart : ¬OpensComment "SELECT 1 - -1 AS x".toList := by
    decide
  refine ⟨written, apart, fun expr writes => ?_⟩
  have none := mt (@mergedText_opensComment_iff false [subtractedConstant] _ _
    (fun variant listed => List.mem_singleton.mp listed ▸ plain) rfl written).mpr apart
  exact Classical.not_not.mp fun meets => none ⟨expr, writes, meets⟩

/-- The names of tables need not hold two hyphens for that: a negative constant that is put in place
of its name gets the minus sign of the expression right before its own.
-/
theorem negatedConstant_opensComment
    : (∀ node ∈ Plan.acquaintances.nodes, ¬['-', '-'] <:+: node.table.toList)
      ∧ (∀ rel ∈ Plan.acquaintances.relationships, ¬['-', '-'] <:+: rel.table.toList)
      ∧ ∃ sql,
        compile .default Plan.acquaintances.catalog
          "MATCH (a:Person) WITH a, -1 AS x RETURN -x AS y"
          = .ok sql
        ∧ sql = "SELECT --1 AS y FROM (SELECT a.id AS a FROM persons AS a) AS with_0"
        ∧ OpensComment sql.toList := by
  have compiled : ((compile .default Plan.acquaintances.catalog
      "MATCH (a:Person) WITH a, -1 AS x RETURN -x AS y").toOption.any fun sql =>
        sql = "SELECT --1 AS y FROM (SELECT a.id AS a FROM persons AS a) AS with_0") = true := by
    decide +kernel
  obtain ⟨sql, compiled, same⟩ := (Option.any_eq_true _ _).mp compiled
  have same := of_decide_eq_true same
  refine ⟨by decide +kernel, by decide +kernel, sql, Plan.toOption_eq_some.mp compiled, same, ?_⟩
  rw [same]
  decide +kernel

end CypherSql.Sql
