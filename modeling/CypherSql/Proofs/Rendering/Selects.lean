import CypherSql.Proofs.Passes.Sources
import CypherSql.Proofs.Rendering.Comments
import CypherSql.Sql.Select

/-! A select is written without a comment exactly if its expressions and the selects in its sources
are: what else it is written with leaves the quotes that it enters and has no sign.
-/

namespace CypherSql.Sql

section Rows

variable {text more : List Char} {apart also : Prop} {α : Type} {write : α → String}
  {isApart : α → Prop}
  {items : List α}

theorem Leaves.congr (leaves : Leaves text apart) (same : apart ↔ also) : Leaves text also :=
  ⟨fun holds => leaves.code (same.mpr holds), fun other => leaves.comment (mt same.mp other)⟩

/-- A text that opens no comment, or one that does and nothing else. -/
theorem Leaves.self (leaves : Leaves text apart) : Leaves text (¬OpensComment text) :=
  leaves.congr leaves.not_opensComment_iff.symm

/-- Texts with something ordinary between them, by induction over their number. -/
theorem leaves_intercalate (separator : String) (write : α → String)
    (ordinary : separator.toList.all isOrdinary)
    (each : ∀ item ∈ items, Leaves (write item).toList (isApart item))
    : Leaves (String.intercalate separator (items.map write)).toList
      (∀ item ∈ items, isApart item) := by
  induction items with
  | nil => exact (leaves_of_code rfl).congr (by simp)
  | cons item rest ih =>
      obtain ⟨first, others⟩ := List.forall_mem_cons.mp each
      cases rest with
      | nil => exact first.congr (by simp)
      | cons next rest =>
          have behind := (ih others).between _ [] ordinary (by simp)
          rw [List.map_cons, List.map_cons, String.intercalate_cons_cons, String.toList_append,
            String.toList_append, List.append_assoc]
          refine (first.append ?_).congr List.forall_mem_cons.symm
          simpa using behind

/-- A part of a select, where its keyword and its separator are ordinary. -/
theorem leaves_part (keyword separator : String) (write : α → String)
    (opens : keyword.toList.all isOrdinary) (ordinary : separator.toList.all isOrdinary)
    (each : ∀ item ∈ items, Leaves (write item).toList (isApart item))
    : Leaves (part keyword separator (items.map write)).toList (∀ item ∈ items, isApart item) := by
  unfold part
  split
  · rename_i empty
    obtain rfl : items = [] := by simpa using empty
    exact (leaves_of_code rfl).congr (by simp)
  · simpa using (leaves_intercalate separator write ordinary each).between _ [] opens (by simp)

/-- Texts right after each other, by induction over their number. -/
theorem leaves_join (each : ∀ item ∈ items, Leaves (write item).toList (isApart item))
    : Leaves (String.join (items.map write)).toList (∀ item ∈ items, isApart item) := by
  induction items with
  | nil => exact (leaves_of_code rfl).congr (by simp)
  | cons item rest ih =>
      obtain ⟨first, others⟩ := List.forall_mem_cons.mp each
      rw [List.map_cons, String.join_cons, String.toList_append]
      exact (first.append (ih others)).congr List.forall_mem_cons.symm

end Rows

/-- The expression is one of a scope, or the name of a column as a sort key. -/
def Expr.IsWritable (expr : Expr) : Prop :=
  expr.OfScope ∨ ∃ name, expr = .label name

theorem Expr.IsWritable.leaves {expr : Expr} (writable : expr.IsWritable)
    : Leaves expr.text.toList (expr.Everywhere SignApart) := by
  rcases writable with ofScope | ⟨name, rfl⟩
  · exact expr.leaves ofScope
  · exact leaves_identifier name

/-- The name of a table opens no comment, and leaves the quotes that it enters. -/
def ClosesQuotes (table : String) : Prop :=
  ScanState.code.after table.toList = .code ∨ ScanState.code.after table.toList = .hyphen

instance (table : String) : Decidable (ClosesQuotes table) :=
  inferInstanceAs (Decidable (_ ∨ _))

theorem ClosesQuotes.leaves {table : String} (closes : ClosesQuotes table)
    : Leaves (table.toList ++ " AS ".toList) True := by
  refine leaves_of_code ?_
  rw [ScanState.after_append]
  rcases closes with code | hyphen
  · rw [code]
    rfl
  · rw [hyphen]
    rfl

namespace Source

/-- A select in a source leaves the quotes that it enters, unless it opens a comment. -/
def Closed : Source → Prop
  | .table content _ => ClosesQuotes content
  | .subquery select _ => Leaves select.toList (¬OpensComment select.toList)

/-- A source has no select that opens a comment. -/
def Apart : Source → Prop
  | .table _ _ => True
  | .subquery select _ => ¬OpensComment select.toList

theorem leaves {source : Source} (closed : source.Closed)
    : Leaves source.text.toList source.Apart := by
  cases source with
  | table content name =>
      have whole := closed.leaves.append (leaves_identifier name)
      simpa [text, Apart] using whole
  | subquery select name =>
      have inside := closed.between ['('] ") AS ".toList (by decide) (by decide)
      simpa [text, Apart] using inside.append (leaves_identifier name)

end Source

theorem Entry.leaves {entry : Entry} (writable : entry.expr.IsWritable)
    : Leaves entry.text.toList (entry.expr.Everywhere Expr.SignApart) := by
  have named := (leaves_identifier entry.name).between " AS ".toList [] (by decide) (by simp)
  simpa [text] using writable.leaves.append named

theorem Join.leaves {join : Join} (closed : join.source.Closed)
    (writable : join.condition.IsWritable)
    : Leaves join.text.toList (join.source.Apart ∧ join.condition.Everywhere Expr.SignApart) := by
  have keyword : (if join.outer then " LEFT JOIN " else " JOIN ").toList.all isOrdinary := by
    cases join.outer <;> decide
  have source := (Source.leaves closed).between _ [] keyword (by simp)
  have condition := writable.leaves.between " ON (".toList [')'] (by decide) (by decide)
  simpa [text] using source.append condition

theorem leaves_sortText {key : Expr} (writable : key.IsWritable) (descending : Bool)
    : Leaves (sortText key.text descending).toList (key.Everywhere Expr.SignApart) := by
  cases descending with
  | false => exact writable.leaves
  | true =>
      have whole := writable.leaves.between [] " DESC".toList (by simp) (by decide)
      simpa [sortText] using whole

/-- The expressions of a paging. -/
def Paging.exprs (paging : Paging) : List Expr :=
  paging.orderBy.map (·.1) ++ paging.limit.toList ++ paging.offset.toList

theorem Paging.leaves {paging : Paging} (writable : ∀ expr ∈ paging.exprs, expr.IsWritable)
    : Leaves paging.text.toList (∀ expr ∈ paging.exprs, expr.Everywhere Expr.SignApart) := by
  simp only [exprs, List.forall_mem_append, List.forall_mem_map] at writable ⊢
  obtain ⟨⟨keys, limit⟩, offset⟩ := writable
  have each : ∀ sort ∈ paging.orderBy,
      Leaves (sortText sort.1.text sort.2).toList (sort.1.Everywhere Expr.SignApart) :=
    fun sort listed => leaves_sortText (keys sort listed) sort.2
  have sorted :=
    leaves_part " ORDER BY " ", " (fun (sort : Expr × Bool) => sortText sort.1.text sort.2)
    (by decide) (by decide) each
  have cut := leaves_part " LIMIT " "" Expr.text (by decide) (by decide)
    fun expr listed => (limit expr listed).leaves
  have skipped := leaves_part " OFFSET " "" Expr.text (by decide) (by decide)
    fun expr listed => (offset expr listed).leaves
  simpa [text, and_assoc] using (sorted.append cut).append skipped

theorem mem_firstOccurrences {texts : List String} {text : String}
    : text ∈ firstOccurrences texts ↔ text ∈ texts :=
  Plan.mem_foldl_new.trans (by simp)

namespace Select

/-- The expressions of a select. -/
def exprs (select : Select) : List Expr :=
  select.entries.map (·.expr) ++ select.joins.map (·.condition) ++ select.conditions
    ++ select.paging.exprs

/-- The sources of a select, those that are joined included. -/
def origins (select : Select) : List Source :=
  select.sources ++ select.joins.map (·.source)

variable {select : Select}

/-- The text of a key to group by is that of a column. -/
theorem exists_entry_of_groupKeys {key : String} (listed : key ∈ select.groupKeys)
    : ∃ entry ∈ select.entries, entry.expr.text = key := by
  unfold groupKeys at listed
  split at listed
  · obtain ⟨entry, kept, rfl⟩ := List.mem_map.mp (mem_firstOccurrences.mp listed)
    exact ⟨entry, (List.mem_filter.mp kept).1, rfl⟩
  · cases listed

theorem leaves_groupKeys (writable : ∀ entry ∈ select.entries, entry.expr.IsWritable)
    : Leaves (part " GROUP BY " ", " select.groupKeys).toList
        (∀ key ∈ select.groupKeys, ¬OpensComment key.toList) := by
  have each : ∀ key ∈ select.groupKeys, Leaves key.toList (¬OpensComment key.toList) := by
    intro key listed
    obtain ⟨entry, isEntry, rfl⟩ := exists_entry_of_groupKeys listed
    exact (writable entry isEntry).leaves.self
  simpa using leaves_part " GROUP BY " ", " id (by decide) (by decide) each

/-- A condition as an operand of `AND`. -/
theorem leaves_conditionText {condition : Expr} (writable : condition.IsWritable)
    : Leaves condition.conditionText.toList (condition.Everywhere Expr.SignApart) :=
  writable.leaves.enclosed _

/-- The text of a select opens no comment exactly if the signs in its expressions stand apart and no
select in its sources opens one.
-/
theorem leaves (writable : ∀ expr ∈ select.exprs, expr.IsWritable)
    (closed : ∀ source ∈ select.origins, source.Closed)
    : Leaves select.text.toList
        ((∀ expr ∈ select.exprs, expr.Everywhere Expr.SignApart)
          ∧ ∀ source ∈ select.origins, source.Apart) := by
  simp only [exprs, origins, List.forall_mem_append, List.forall_mem_map] at writable closed ⊢
  obtain ⟨⟨⟨entries, joined⟩, conditions⟩, paging⟩ := writable
  obtain ⟨sources, joinedSources⟩ := closed
  have opening
      : ("SELECT " ++ if select.distinct then "DISTINCT " else "").toList.all isOrdinary := by
    cases select.distinct <;> decide
  have columns := leaves_intercalate ", " Entry.text (by decide) fun entry isEntry =>
    Entry.leaves (entries entry isEntry)
  have listed := columns.between _ [] opening (by simp)
  have read := leaves_part " FROM " " CROSS JOIN " Source.text (by decide) (by decide)
    fun source isSource => Source.leaves (sources source isSource)
  have joins := leaves_join fun join isJoin =>
    Join.leaves (joinedSources join isJoin) (joined join isJoin)
  have kept := leaves_part " WHERE " " AND " Expr.conditionText (by decide) (by decide)
    fun condition isCondition => leaves_conditionText (conditions condition isCondition)
  have whole := ((((listed.append read).append joins).append kept).append
    (leaves_groupKeys entries)).append (Paging.leaves paging)
  have keys (each : ∀ entry ∈ select.entries, entry.expr.Everywhere Expr.SignApart)
      : ∀ key ∈ select.groupKeys, ¬OpensComment key.toList := by
    intro key listed
    obtain ⟨entry, isEntry, rfl⟩ := exists_entry_of_groupKeys listed
    exact (entries entry isEntry).leaves.not_opensComment_iff.mpr (each entry isEntry)
  unfold text commas
  simp only [String.toList_append, List.append_nil, List.append_assoc] at whole ⊢
  refine whole.congr ?_
  simp only [forall_and]
  tauto

end Select

end CypherSql.Sql
