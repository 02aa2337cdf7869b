import CypherSql.Compile
import CypherSql.Proofs.Pipeline
import CypherSql.Proofs.RangeRecognition
import Mathlib.Algebra.BigOperators.Group.List.Basic
import Mathlib.Algebra.CharZero.Defs
import Mathlib.Algebra.Order.Group.Multiset
import Mathlib.Algebra.Order.Ring.Int
import Mathlib.Data.Multiset.Fold

/-! Aggregates over a union of variants, which are computed from the values of the variants. The law
they rest on is about a bag of values that is distributed over the variants in any way.
-/

namespace CypherSql.Plan

open Cypher (rangesOf)
open Expansion (FindsAll trimmedParts cut boundsOf choiceCount hopChoices expand)

variable {α : Type} [AddCommMonoidWithOne α]

/-- The number of values in a bag that are not NULL. -/
def countPresent (values : Multiset (Option α)) : α :=
  (values.countP fun value => value.isSome : ℕ)

theorem countPresent_flatten (parts : List (Multiset (Option α)))
    : countPresent parts.sum = (parts.map countPresent).sum := by
  induction parts with
  | nil => simp [countPresent]
  | cons part rest ih =>
      rw [List.sum_cons, List.map_cons, List.sum_cons, ← ih]
      simp only [countPresent, Multiset.countP_add, Nat.cast_add]

variable [LinearOrder α]

/-- The value of an aggregate for two values. -/
def MergeAggregate.join : MergeAggregate → α → α → α
  | .sum => (· + ·)
  | .min => Min.min
  | .max => Max.max

namespace MergeAggregate

instance join_commutative (total : MergeAggregate) : Std.Commutative (total.join (α := α)) where
  comm first second := by
    cases total with
    | sum => exact add_comm first second
    | min => exact min_comm first second
    | max => exact max_comm first second

instance join_associative (total : MergeAggregate) : Std.Associative (total.join (α := α)) where
  assoc first second third := by
    cases total with
    | sum => exact add_assoc first second third
    | min => exact min_assoc first second third
    | max => exact max_assoc first second third

/-- The aggregate of a bag of values, of which `none` is NULL: it is NULL itself if there is nothing
else in the bag.
-/
def ofBag (total : MergeAggregate) (values : Multiset (Option α)) : Option α :=
  values.fold (Option.merge total.join) none

@[simp]
theorem ofBag_zero (total : MergeAggregate) : total.ofBag (0 : Multiset (Option α)) = none :=
  Multiset.fold_zero _ _

@[simp]
theorem ofBag_cons (total : MergeAggregate) (value : Option α) (values : Multiset (Option α))
    : total.ofBag (value ::ₘ values) = Option.merge total.join value (total.ofBag values) :=
  Multiset.fold_cons_left _ _ _ _

theorem ofBag_add (total : MergeAggregate) (first second : Multiset (Option α))
    : total.ofBag (first + second) = Option.merge total.join (total.ofBag first)
      (total.ofBag second) :=
  Multiset.fold_add _ none none first second

/-- The aggregate of a bag is that of the aggregates of its parts. -/
theorem ofBag_flatten (total : MergeAggregate) (parts : List (Multiset (Option α)))
    : total.ofBag parts.sum = total.ofBag (parts.map total.ofBag : List (Option α)) := by
  induction parts with
  | nil => simp
  | cons part rest ih =>
      rw [List.sum_cons, ofBag_add, ih, List.map_cons, ← Multiset.cons_coe, ofBag_cons]

/-- Repetitions change neither the least nor the greatest value. -/
theorem ofBag_dedup {total : MergeAggregate} (other : total ≠ .sum) (values : Multiset (Option α))
    : total.ofBag values.dedup = total.ofBag values := by
  have idempotent : Std.IdempotentOp (total.join (α := α)) := by
    constructor
    intro value
    cases total with
    | sum => contradiction
    | min => exact min_self value
    | max => exact max_self value
  exact Multiset.fold_dedup_idem _ values none

/-- The sum of values of which none is NULL. -/
theorem sum_ofBag_some {values : List α} (some : values ≠ [])
    : MergeAggregate.sum.ofBag (values.map Option.some : List (Option α)) = .some values.sum := by
  induction values with
  | nil => contradiction
  | cons value rest ih =>
      rw [List.map_cons, ← Multiset.cons_coe, ofBag_cons]
      cases rest with
      | nil => simp
      | cons next others =>
          rw [ih (by simp), Option.merge_some_some, List.sum_cons]
          rfl

end MergeAggregate

/-- The values that an aggregate looks at: with `DISTINCT` each only once. -/
def considered (distinct : Bool) (values : Multiset (Option α)) : Multiset (Option α) :=
  if distinct then values.dedup else values

/-- What an aggregate makes of a bag of values, unless it is one that is not computed over a union.
-/
def aggregateOf? (distinct : Bool) : Aggregate → Option (Multiset (Option α) → Option α)
  | .count => some fun values => some (countPresent (considered distinct values))
  | .sum => some fun values => MergeAggregate.sum.ofBag (considered distinct values)
  | .min => some fun values => MergeAggregate.min.ofBag (considered distinct values)
  | .max => some fun values => MergeAggregate.max.ofBag (considered distinct values)
  | .avg => none
  | .collect => none

/-- In whichever way a bag is distributed over a number of branches, an aggregate of the whole bag
is an aggregate over the values of the branches.
-/
def Reaggregates (α : Type) [LinearOrder α] [AddCommMonoidWithOne α] (function : Aggregate)
    (distinct : Bool) (total : MergeAggregate) (branches : Nat)
    : Prop :=
  ∃ value : Multiset (Option α) → Option α,
    aggregateOf? distinct function = some value
    ∧ ∀ parts : List (Multiset (Option α)),
        parts.length = branches
        → value parts.sum = total.ofBag (parts.map value : List (Option α))

variable {function : Aggregate} {distinct : Bool} {total : MergeAggregate} {branches : Nat}

/-- Without repetitions to drop, counts are added up and every other aggregate continues itself. -/
theorem Reaggregates.of_all (continues : MergeAggregate.ofAggregate? function = some total)
    (branched : branches ≠ 0)
    : Reaggregates α function false total branches := by
  cases function <;> cases continues
  case count =>
    refine ⟨_, rfl, fun parts length => ?_⟩
    have present : parts.map (countPresent (α := α)) ≠ [] := by
      intro empty
      rw [List.map_eq_nil_iff] at empty
      exact branched (by rw [← length, empty, List.length_nil])
    calc some (countPresent parts.sum)
      _ = some (parts.map countPresent).sum := by rw [countPresent_flatten]
      _ = MergeAggregate.sum.ofBag ((parts.map countPresent).map some : List (Option α)) :=
          (MergeAggregate.sum_ofBag_some present).symm
      _ = MergeAggregate.sum.ofBag (parts.map (fun part => some (countPresent part)) : List _) := by
          rw [List.map_map]; rfl
  all_goals exact ⟨_, rfl, fun parts _ => MergeAggregate.ofBag_flatten _ parts⟩

/-- The least and the greatest value are the same with repetitions and without. -/
theorem Reaggregates.of_least_or_greatest
    (continues : MergeAggregate.ofAggregate? function = some total) (other : total ≠ .sum)
    : Reaggregates α function distinct total branches := by
  have dropped (values : Multiset (Option α))
      : total.ofBag (considered distinct values) = total.ofBag values := by
    cases distinct with
    | false => rfl
    | true => exact MergeAggregate.ofBag_dedup other values
  have law (parts : List (Multiset (Option α)))
      : total.ofBag (considered distinct parts.sum)
        = total.ofBag (parts.map fun part => total.ofBag (considered distinct part) : List _) := by
    simp only [dropped]
    exact MergeAggregate.ofBag_flatten total parts
  cases function <;> cases continues
  case min | max => exact ⟨_, rfl, fun parts _ => law parts⟩
  all_goals contradiction

/-- Branches that have nothing to count or to add up do not change a sum. -/
theorem MergeAggregate.sum_ofBag_replicate {value : Option α}
    (empty : value = none ∨ value = some 0)
    (count : Nat)
    : MergeAggregate.sum.ofBag (Multiset.replicate count value) = none
      ∨ MergeAggregate.sum.ofBag (Multiset.replicate count value) = some 0 := by
  induction count with
  | zero => exact .inl (ofBag_zero _)
  | succ count ih =>
      rw [Multiset.replicate_succ, ofBag_cons]
      rcases empty with rfl | rfl <;> rcases ih with ih | ih <;> rw [ih] <;> simp [join]

/-- A value that stands in two branches is counted and added up for each of them. -/
theorem Reaggregates.not_distinct_sum [CharZero α]
    (continues : MergeAggregate.ofAggregate? function = some .sum) (several : 2 ≤ branches)
    : ¬ Reaggregates α function true .sum branches := by
  intro law
  obtain ⟨others, rfl⟩ := Nat.exists_eq_add_of_le several
  obtain ⟨value, isValue, law⟩ := law
  have once : value {some 1} = some 1
      ∧ value {some 1, some 1} = some 1
      ∧ (value 0 = none ∨ value 0 = some 0) := by
    cases function <;> cases continues <;> cases isValue <;>
      simp [considered, countPresent, ← Multiset.cons_zero]
  obtain ⟨single, double, empty⟩ := once
  have law := law ({some 1} :: {some 1} :: List.replicate others 0) (by simp; omega)
  have whole : ({some 1} :: {some 1} :: List.replicate others 0 : List (Multiset (Option α))).sum
      = {some 1, some 1} := by
    simp only [List.sum_cons, List.sum_replicate, nsmul_zero, add_zero]
    rfl
  rw [whole, double, List.map_cons, List.map_cons, List.map_replicate, single,
    ← Multiset.cons_coe, ← Multiset.cons_coe, MergeAggregate.ofBag_cons, MergeAggregate.ofBag_cons,
    Multiset.coe_replicate] at law
  have twice : (1 : α) = 1 + 1 := by
    rcases MergeAggregate.sum_ofBag_replicate empty others with rest | rest <;> rw [rest] at law <;>
      simpa [MergeAggregate.join] using law
  have same : ((1 : ℕ) : α) = (2 : ℕ) := by rwa [Nat.cast_one, Nat.cast_two, ← one_add_one_eq_two]
  exact absurd (Nat.cast_injective same) (by decide)

/-- Exactly the aggregates that do not depend on repetitions can be computed from the values of
several branches.
-/
theorem reaggregates_iff [CharZero α]
    (continues : MergeAggregate.ofAggregate? function = some total)
    (several : 2 ≤ branches)
    : Reaggregates α function distinct total branches ↔ (distinct = true → total ≠ .sum) := by
  constructor
  · rintro law rfl rfl
    exact Reaggregates.not_distinct_sum continues several law
  · intro sound
    cases distinct with
    | false => exact .of_all continues (by omega)
    | true => exact .of_least_or_greatest continues (sound rfl)

theorem mergeOf_ok_some {expr : Expr} (accepts : mergeOf expr = .ok (some total))
    : ∃ function distinct args,
        expr = .aggregate function distinct args
        ∧ MergeAggregate.ofAggregate? function = some total := by
  unfold mergeOf at accepts
  split at accepts
  · rename_i function distinct args
    split at accepts
    · rename_i found
      cases accepts
      exact ⟨function, distinct, args, rfl, found⟩
    · cases accepts
  · split at accepts <;> cases accepts

/-- The merged columns of a union are the columns of its first branch, and where an aggregate merges
one of them no rows of the branches are dropped.
-/
theorem unite_ok {unionDistinct : Bool} {first : Lowered} {rest : List Lowered} {union : UnionQuery}
    (unites : unite unionDistinct first rest = .ok union)
    : union.branches = first :: rest
      ∧ (∃ columns,
          first.columns = .ok columns
          ∧ union.columns = columns.map fun column => ⟨column.name, column.merge⟩)
      ∧ ((∃ column ∈ union.columns, column.merge.isSome) → union.all = true) := by
  unfold unite at unites
  obtain ⟨columns, listed, unites⟩ := bind_eq_ok.mp unites
  obtain ⟨_, -, unites⟩ := bind_eq_ok.mp unites
  obtain ⟨orderBy, -, unites⟩ := bind_eq_ok.mp unites
  obtain rfl := Except.ok.inj unites
  refine ⟨rfl, ⟨columns, listed, rfl⟩, ?_⟩
  rintro ⟨merged, member, isSome⟩
  obtain ⟨column, listed, rfl⟩ := List.mem_map.mp member
  have reaggregate : columns.any (·.merge.isSome) = true :=
    List.any_eq_true.mpr ⟨column, listed, isSome⟩
  simp [reaggregate]

/-- A column is returned by its expression, which decides how it is merged. -/
theorem mergeOf_of_mem_columns {variant : Lowered} {columns : List ReturnColumn}
    {column : ReturnColumn} (listed : variant.columns = .ok columns) (member : column ∈ columns)
    : mergeOf column.expr = .ok column.merge := by
  obtain ⟨index, found⟩ := List.getElem?_of_mem member
  obtain ⟨item, -, returns⟩ :=
    forall₂_getElem?_right (Modality.forall₂_of_mapM_eq_ok listed) found
  unfold returnColumn at returns
  obtain ⟨⟨id, expr⟩, -, returns⟩ := bind_eq_ok.mp returns
  dsimp only at returns
  split at returns
  · cases returns
  · obtain ⟨merge, merges, returns⟩ := bind_eq_ok.mp returns
    obtain rfl := Except.ok.inj returns
    exact merges

/-- A union has two branches at least. -/
theorem merge_union {unionDistinct : Bool} {variants : List Lowered} {union : UnionQuery}
    (merges : merge unionDistinct variants = .ok (.union union))
    : ∃ first second rest,
        variants = first :: second :: rest
        ∧ unite unionDistinct first (second :: rest) = .ok union := by
  unfold merge at merges
  split at merges
  · cases merges
  · cases merges
  · rename_i first rest several
    obtain ⟨_, unites, merges⟩ := bind_eq_ok.mp merges
    cases merges
    cases rest with
    | nil => exact absurd rfl several
    | cons second rest => exact ⟨first, second, rest, rfl, unites⟩

/-- A column of a union that is merged by an aggregate is an aggregate in its branches, whose rows
are all kept. It has the value that the aggregate has for the rows of all branches together unless
it adds up the values of an aggregate with `DISTINCT`.
-/
theorem merge_reaggregates_iff (α : Type) [LinearOrder α] [AddCommMonoidWithOne α] [CharZero α]
    {unionDistinct : Bool} {variants : List Lowered} {union : UnionQuery} {name : String}
    {total : MergeAggregate} (merges : merge unionDistinct variants = .ok (.union union))
    (member : ⟨name, some total⟩ ∈ union.columns)
    : union.all = true
      ∧ ∃ columns column function distinct args,
          union.first.columns = .ok columns
          ∧ column ∈ columns
          ∧ column.name = name
          ∧ column.expr = .aggregate function distinct args
          ∧ (Reaggregates α function distinct total union.branches.length
              ↔ (distinct = true → function = .min ∨ function = .max)) := by
  obtain ⟨first, second, rest, -, unites⟩ := merge_union merges
  obtain ⟨branches, ⟨columns, listed, named⟩, keeps⟩ := unite_ok unites
  obtain rfl : union.first = first := (List.cons.inj branches).1
  refine ⟨keeps ⟨_, member, rfl⟩, columns, ?_⟩
  rw [named] at member
  obtain ⟨column, isColumn, same⟩ := List.mem_map.mp member
  obtain ⟨rfl, merged⟩ := MergedColumn.mk.inj same
  obtain ⟨function, distinct, args, isAggregate, continues⟩ :=
    mergeOf_ok_some ((mergeOf_of_mem_columns listed isColumn).trans (by rw [merged]))
  refine ⟨column, function, distinct, args, listed, isColumn, rfl, isAggregate, ?_⟩
  have several : 2 ≤ union.branches.length := by simp [branches]
  rw [reaggregates_iff continues several]
  cases function <;> cases continues <;> simp

/-- A text is lowered as the query that it is read as. -/
theorem lowerText_eq_ok {catalog : Catalog} {text : String} {query : Cypher.Query}
    {lowered : Lowered} (parsed : Cypher.Query.parse text = .ok query)
    : lowerText catalog text = .ok lowered ↔ lower catalog query = .ok lowered := by
  rw [lowerText, parsed]
  exact mapError_eq_ok

/-- Texts are lowered one after the other, by induction over them. -/
theorem mapM_lowerText {catalog : Catalog} {query : Cypher.Query} {choices : List (List Nat)}
    {texts : List String} {variants : List Lowered}
    (read : List.Forall₂ (fun counts text => Cypher.Query.parse text = .ok (query.written counts))
      choices texts)
    (lowers : choices.mapM (fun counts => lower catalog (query.written counts)) = .ok variants)
    : texts.mapM (lowerText catalog) = .ok variants := by
  induction read generalizing variants with
  | nil =>
      obtain rfl := Except.ok.inj lowers
      rfl
  | cons parsed _ ih =>
      rw [List.mapM_cons] at lowers ⊢
      obtain ⟨first, one, lowers⟩ := bind_eq_ok.mp lowers
      obtain ⟨rest, others, same⟩ := bind_eq_ok.mp lowers
      obtain rfl := Except.ok.inj same
      exact bind_eq_ok.mpr ⟨first, (lowerText_eq_ok parsed).mpr one,
        bind_eq_ok.mpr ⟨rest, ih others, rfl⟩⟩

/-- The query of some characters and the union that it is compiled to: its relationships with a
range are written out in hops, where they are all that is found in the text and no path becomes too
long.
-/
def writtenUnion? (settings : Settings) (catalog : Catalog) (source : List Char)
    : Option (Cypher.Query × UnionQuery) := do
  let query ← Cypher.Query.ofChars? source
  let ranges := (rangesOf query.relationships).map (boundsOf settings.limits.maxHops)
  if FindsAll query (trimmedParts (cut source).parts)
      ∧ (∀ range ∈ ranges, 1 ≤ range.1 ∧ range.1 ≤ range.2)
      ∧ choiceCount ranges ≤ settings.limits.maxVariants
      ∧ ∀ counts ∈ hopChoices ranges, (query.written counts).IsShort then
    let variants ←
      ((hopChoices ranges).mapM fun counts => lower catalog (query.written counts)).toOption
    match merge settings.unionDistinct variants with
    | .ok (.union union) => some (query, union)
    | _ => none
  else none

/-- The texts that such a query expands to are lowered to the variants of the union. -/
theorem exists_of_writtenUnion? {settings : Settings} {catalog : Catalog} {source : String}
    {query : Cypher.Query} {union : UnionQuery}
    (found : writtenUnion? settings catalog source.toList = some (query, union))
    : ∃ texts variants,
        expand settings.limits source = .ok texts
        ∧ (hopChoices ((rangesOf query.relationships).map (boundsOf settings.limits.maxHops))).mapM
            (fun counts => lower catalog (query.written counts))
          = .ok variants
        ∧ texts.mapM (lowerText catalog) = .ok variants
        ∧ merge settings.unionDistinct variants = .ok (.union union) := by
  obtain ⟨other, parsed, found⟩ := Option.bind_eq_some_iff.mp found
  rw [← Cypher.Query.toOption_parse, toOption_eq_some] at parsed
  dsimp only at found
  split at found
  · rename_i conditions
    obtain ⟨finds, ordered, few, short⟩ := conditions
    obtain ⟨variants, lowers, found⟩ := Option.bind_eq_some_iff.mp found
    split at found
    · rename_i merges
      obtain ⟨rfl, rfl⟩ := Prod.mk.inj (Option.some.inj found)
      have lowers := toOption_eq_some.mp lowers
      have leftmost := (Expansion.Scan.of_cut source.toList).leftmostMatches
      obtain ⟨texts, expands, -, reads⟩ :=
        Expansion.exists_texts parsed leftmost finds ordered few
      have reads := ((List.forall₂_and_left _ _).mpr ⟨short, reads⟩).imp fun _ _ both =>
        both.2 both.1
      exact ⟨texts, variants, expands, lowers, mapM_lowerText reads lowers, merges⟩
    · cases found
  · cases found

/-- The only column of the union adds up counts, and whether these are counts with `DISTINCT`. -/
def UnionQuery.addsCounts? (union : UnionQuery) : Option Bool :=
  match union.columns, union.first.columns with
  | [⟨_, some .sum⟩], .ok [column] =>
      match column.expr with
      | .aggregate .count distinct _ => some distinct
      | _ => none
  | _, _ => none

theorem UnionQuery.addsCounts?_eq_some {union : UnionQuery}
    (adds : union.addsCounts? = some distinct)
    : ∃ name column args,
        union.columns = [⟨name, some .sum⟩]
        ∧ union.first.columns = .ok [column]
        ∧ column.expr = .aggregate .count distinct args := by
  unfold addsCounts? at adds
  split at adds
  · rename_i name column merged listed
    split at adds
    · rename_i args counts
      exact ⟨name, column, args, merged, listed, Option.some.inj adds ▸ counts⟩
    · cases adds
  · cases adds

/-- Witness: the nodes that are reached over one relationship and over two are counted in two
branches, and the counts are added up to the count of all.
-/
theorem countedHops_reaggregate
    : ∃ texts variants union column args,
        Expansion.expand Settings.default.limits
            "MATCH (a:Person)-[:KNOWS*1..2]->(b:Person) RETURN count(b) AS n" = .ok texts
        ∧ texts.mapM (lowerText acquaintances.catalog) = .ok variants
        ∧ merge false variants = .ok (.union union)
        ∧ union.all = true
        ∧ union.first.columns = .ok [column]
        ∧ column.expr = .aggregate .count false args
        ∧ Reaggregates ℤ .count false .sum union.branches.length := by
  have isUnion : ((writtenUnion? .default acquaintances.catalog
      "MATCH (a:Person)-[:KNOWS*1..2]->(b:Person) RETURN count(b) AS n".toList).any
        fun found => found.2.addsCounts? = some false) = true := by
    rw [String.toList_ofList]
    decide +kernel
  obtain ⟨⟨query, union⟩, isUnion, adds⟩ := (Option.any_eq_true _ _).mp isUnion
  obtain ⟨texts, variants, expands, -, lowers, merges⟩ := exists_of_writtenUnion? isUnion
  obtain ⟨name, column, args, merged, listed, counts⟩ :=
    UnionQuery.addsCounts?_eq_some (of_decide_eq_true adds)
  obtain ⟨keeps, columns, other, function, distinct, others, otherListed, member, -, same, law⟩ :=
    merge_reaggregates_iff ℤ merges (merged ▸ List.mem_singleton.mpr rfl)
  obtain rfl := Except.ok.inj (listed.symm.trans otherListed)
  obtain rfl := List.mem_singleton.mp member
  obtain ⟨rfl, rfl, rfl⟩ := Expr.aggregate.inj (counts.symm.trans same)
  exact ⟨texts, variants, union, other, args, expands, lowers, merges, keeps, listed, counts,
    law.mpr nofun⟩

/-- With `DISTINCT` the counts of the branches are added up as well, so that a node that is reached
in both ways is counted twice.
-/
theorem distinctHops_not_reaggregate
    : ∃ texts variants union column args,
        Expansion.expand Settings.default.limits
            "MATCH (a:Person)-[:KNOWS*1..2]->(b:Person) RETURN count(DISTINCT b) AS n" = .ok texts
        ∧ texts.mapM (lowerText acquaintances.catalog) = .ok variants
        ∧ merge false variants = .ok (.union union)
        ∧ union.first.columns = .ok [column]
        ∧ column.expr = .aggregate .count true args
        ∧ mergeOf column.expr = .ok (some .sum)
        ∧ ¬ Reaggregates ℤ .count true .sum union.branches.length := by
  have isUnion : ((writtenUnion? .default acquaintances.catalog
      "MATCH (a:Person)-[:KNOWS*1..2]->(b:Person) RETURN count(DISTINCT b) AS n".toList).any
        fun found => found.2.addsCounts? = some true) = true := by
    rw [String.toList_ofList]
    decide +kernel
  obtain ⟨⟨query, union⟩, isUnion, adds⟩ := (Option.any_eq_true _ _).mp isUnion
  obtain ⟨texts, variants, expands, -, lowers, merges⟩ := exists_of_writtenUnion? isUnion
  obtain ⟨name, column, args, -, listed, counts⟩ :=
    UnionQuery.addsCounts?_eq_some (of_decide_eq_true adds)
  obtain ⟨first, second, rest, -, unites⟩ := merge_union merges
  have several : 2 ≤ union.branches.length := by simp [(unite_ok unites).1]
  exact ⟨texts, variants, union, column, args, expands, lowers, merges, listed, counts,
    by rw [counts]; rfl, Reaggregates.not_distinct_sum rfl several⟩

end CypherSql.Plan
