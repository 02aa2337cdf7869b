import CypherSql.Proofs.Outcome
import CypherSql.Proofs.ParsedQueries
import CypherSql.Proofs.Printing.Patterns

/-! Clauses and whole queries are read back from their canonical texts, up to the texts that the
items of their projections were written as.
-/

namespace CypherSql.Cypher

/-- The words that open a part of a query. -/
def sectionWords : List String :=
  ["ORDER", "SKIP", "LIMIT", "WHERE", "OPTIONAL", "MATCH", "WITH", "RETURN"]

/-- The words that open a clause. -/
def clauseWords : List String :=
  sectionWords.drop 4

/-- What may follow a part of a query: nothing, or a blank and one of some words. -/
inductive Continues (words : List String) : List Char → Prop where
  | done : Continues words []
  | word {word more} (listed : word ∈ words) : Continues words (' ' :: (word.toList ++ ' ' :: more))

theorem sectionWords_apart
    : ∀ word ∈ sectionWords,
        IsWord word
        ∧ ∀ entry ∈ wordLevels, 0 ≤ entry.2
          → word.toList.map foldCase ≠ entry.1.toList.map foldCase := by
  decide

section Continues

variable {words fewer : List String} {rest : List Char} {word : String}

theorem Continues.mono (continues : Continues fewer rest) (subset : ∀ word ∈ fewer, word ∈ words)
    : Continues words rest := by
  cases continues with
  | done => exact .done
  | word listed => exact .word (subset _ listed)

theorem Continues.stops (continues : Continues words rest)
    (known : ∀ word ∈ words, word ∈ sectionWords)
    : Stops 0 rest := by
  cases continues with
  | done => exact stops_nil
  | word listed =>
      obtain ⟨isWord, apart⟩ := sectionWords_apart _ (known _ listed)
      exact stops_word isWord (wordEnds_cons (by decide)) apart

theorem IsWord.utf8ByteSize_pos (isWord : IsWord word) : 0 < word.utf8ByteSize := by
  obtain ⟨size, nonempty, -⟩ := isWord
  rw [size, ← String.length_toList]
  exact List.length_pos_iff.mpr nonempty

/-- A keyword is rejected where the query ends. -/
theorem IsWord.rejects_nil (isWord : IsWord word) : (keyword word).Rejects [] := by
  refine keyword_rejects_head isWord.utf8ByteSize_pos ?_
  obtain ⟨c, others, opens⟩ := List.exists_cons_of_ne_nil isWord.nonempty
  simp [opens]

/-- A keyword is rejected where another word follows. -/
theorem Continues.rejects {other : String} (continues : Continues words rest)
    (known : ∀ word ∈ words, word ∈ sectionWords) (isWord : IsWord other)
    (plain : IsPlainWord other)
    (apart : ∀ word ∈ words, word.toList.map foldCase ≠ other.toList.map foldCase)
    : (keyword other).Rejects (skip rest) := by
  cases continues with
  | done => exact isWord.rejects_nil
  | @word word more listed =>
      obtain ⟨isWord, -⟩ := sectionWords_apart word (known word listed)
      have here
          : skip (skip (' ' :: (word.toList ++ ' ' :: more))) = word.toList ++ ' ' :: more := by
        rw [skip_skip, skip_space, isWord.solid.skip_append]
      exact keyword_rejects_word plain here
        (fun c member => isWordChar_of_isAlpha (isWord.letters c member))
        (wordEnds_cons (by decide))
        (apart word listed)

/-- A keyword is rejected where a word with another first letter follows. -/
theorem Continues.rejects_head {other : String} (continues : Continues words rest)
    (known : ∀ word ∈ words, word ∈ sectionWords) (isWord : IsWord other)
    (apart : ∀ word ∈ words, word.toList.head?.map foldCase ≠ other.toList.head?.map foldCase)
    : (keyword other).Rejects (skip rest) := by
  cases continues with
  | done => exact isWord.rejects_nil
  | @word word more listed =>
      obtain ⟨follows, -⟩ := sectionWords_apart word (known word listed)
      refine keyword_rejects_head isWord.utf8ByteSize_pos ?_
      obtain ⟨c, others, opens⟩ := List.exists_cons_of_ne_nil follows.nonempty
      have here
          : (skip (skip (' ' :: (word.toList ++ ' ' :: more)))).head? = word.toList.head? := by
        rw [skip_skip, skip_space, follows.solid.skip_append, opens]
        rfl
      rw [here]
      exact (apart word listed).symm

theorem Continues.lacks_comma (continues : Continues words rest)
    (known : ∀ word ∈ words, word ∈ sectionWords)
    : Lacks ',' (skip rest) := by
  cases continues with
  | done => exact lacks_nil
  | @word word more listed =>
      obtain ⟨isWord, -⟩ := sectionWords_apart word (known word listed)
      rw [skip_space, isWord.solid.skip_append]
      refine lacks_append ?_ isWord.nonempty
      intro opens
      have alpha := isWord.letters ',' (List.mem_of_mem_head? opens)
      cases alpha

theorem continues_printAfter {text : List Char} (listed : word ∈ words)
    : Continues words (printAfter word text ++ rest) := by
  have whole : printAfter word text ++ rest = ' ' :: (word.toList ++ ' ' :: (text ++ rest)) := by
    simp [printAfter]
  rw [whole]
  exact .word listed

theorem Continues.printPart {part : Option Expr} (continues : Continues words rest)
    (listed : word ∈ words)
    : Continues words (printPart word part ++ rest) := by
  cases part with
  | none => exact continues
  | some e => exact continues_printAfter listed

end Continues

section Parts

variable {rest : List Char}

/-- A keyword is read where it follows something else. -/
theorem keyword_after {word : String} (isWord : IsWord word) {text : List Char} (solid : Solid text)
    : keyword word (skip (printAfter word text ++ rest)) = .ok () (text ++ rest) := by
  have whole
      : skip (skip (printAfter word text ++ rest)) = word.toList ++ ' ' :: (text ++ rest) := by
    rw [skip_skip, printAfter, List.append_assoc, List.cons_append, skip_space,
      isWord.solid.skip_append]
    rfl
  rw [keyword_read isWord whole (wordEnds_cons (by decide)), skip_space, solid.skip_append]

/-- An expression after a keyword is read where it stands. -/
theorem pageClause_read {word : String} (isWord : IsWord word) {part : Option Expr}
    (printable : ∀ e ∈ part, e.Printable) (stops : Stops 0 rest)
    (absent : (keyword word).Rejects (skip rest)) (complaint : Complaint)
    : (pageClause word complaint).optional (skip (printPart word part ++ rest))
      = .ok part (skip rest) := by
  refine optional_printOption (fun e found => ?_) fun _ => absent.bind
  have read : expression (e.print ++ rest) = .ok e (skip rest) :=
    expression_read (printable e found) stops
  rw [pageClause, Parser.bind_of_ok (keyword_after isWord (printable e found).leads.solid)]
  exact Parser.within_of_ok (Parser.committed_of_ok read) complaint

end Parts

/-- The words that go on with an item. -/
def itemWords : List String :=
  ["AS", "DESCENDING", "DESC", "ASCENDING", "ASC"]

/-- An item ends: neither its expression goes on nor a word that belongs to it follows. -/
structure ItemEnds (rest : List Char) : Prop where
  stops : Stops 0 rest
  words : ∀ word ∈ itemWords, (keyword word).Rejects (skip rest)

theorem itemEnds_comma (tail : List Char) : ItemEnds (',' :: tail) where
  stops := stops_mark (by simp)
  words := by
    simp only [itemWords, List.forall_mem_cons, List.not_mem_nil, false_imp_iff,
      implies_true, and_true]
    exact ⟨⟨_, rfl⟩, ⟨_, rfl⟩, ⟨_, rfl⟩, ⟨_, rfl⟩, ⟨_, rfl⟩⟩

theorem Continues.itemEnds {words : List String} {rest : List Char}
    (continues : Continues words rest)
    (known : ∀ word ∈ words, word ∈ sectionWords)
    : ItemEnds rest where
  stops := continues.stops known
  words := by
    have apart : ∀ other ∈ itemWords, IsWord other ∧ IsPlainWord other
        ∧ ∀ word ∈ sectionWords, word.toList.map foldCase ≠ other.toList.map foldCase := by
      decide
    intro other listed
    obtain ⟨isWord, plain, differs⟩ := apart other listed
    exact continues.rejects known isWord plain fun word listed => differs word (known word listed)

structure ProjectionItem.Printable (item : ProjectionItem) : Prop where
  expr : item.expr.Printable
  aliasName : ∀ name ∈ item.aliasName, '`' ∉ name.toList

section Items

variable {rest : List Char}

theorem solid_append {text tail : List Char} (solid : Solid text) : Solid (text ++ tail) := by
  obtain ⟨c, others, rfl, noSpace⟩ := solid
  exact ⟨c, others ++ tail, rfl, noSpace⟩

/-- An expression ends before a keyword that is no operator. -/
theorem stops_printAfter {word : String} {text : List Char} (isWord : IsWord word)
    (apart
      : ∀ entry ∈ wordLevels, 0 ≤ entry.2 → word.toList.map foldCase ≠ entry.1.toList.map foldCase)
    : Stops 0 (printAfter word text ++ rest) := by
  rw [printAfter, List.append_assoc]
  exact stops_word isWord (wordEnds_cons (by decide)) apart

/-- An item is read back, with another text that it was written as. -/
theorem projectionItem_read {item : ProjectionItem} (printable : item.Printable)
    (ends : ItemEnds rest)
    : ∃ again : ProjectionItem,
        again.unworded = item.unworded
        ∧ projectionItem (item.print ++ rest) = .ok again (skip rest) := by
  obtain ⟨e, aliasName, text⟩ := item
  have stops
      : Stops 0 (printOption (fun name => printAfter "AS" (printName name)) aliasName ++ rest) := by
    cases aliasName with
    | none => exact ends.stops
    | some name => exact stops_printAfter (by decide) (by decide)
  have read := expression_read printable.expr stops
  have named : Parser.optional (do keyword "AS"; padded identifier)
      (skip (printOption (fun name => printAfter "AS" (printName name)) aliasName ++ rest))
      = .ok aliasName (skip rest) := by
    refine optional_printOption (fun name found => ?_) fun _ =>
      (ends.words "AS" (by simp [itemWords])).bind
    rw [Parser.bind_of_ok (keyword_after (by decide) (solid_printName name)),
      ← (solid_printName name).skip_append, padded_identifier_here (printable.aliasName name found)]
  rw [ProjectionItem.print, List.append_assoc]
  generalize printOption (fun name => printAfter "AS" (printName name)) aliasName ++ rest = tail
    at read named
  refine ⟨⟨e, aliasName, String.ofList (Text.trim ((e.print ++ tail).take
    ((e.print ++ tail).length - (skip tail).length)))⟩, rfl, ?_⟩
  refine (Parser.bind_of_ok (?_ : _ = Reply.ok (e, String.ofList (Text.trim ((e.print ++ tail).take
    ((e.print ++ tail).length - (skip tail).length)))) (skip tail))).trans (Parser.bind_of_ok named)
  dsimp only
  rw [read]

/-- The order of a sort key, where it is written. -/
theorem descending_read (descending : Bool) (ends : ItemEnds rest)
    : ∃ found,
        found.getD false = descending
        ∧ (Parser.choice [keywordAs "DESCENDING" true, keywordAs "DESC" true,
          keywordAs "ASCENDING" false,
              keywordAs "ASC" false]).optional
              (skip ((if descending then ' ' :: "DESC".toList else []) ++ rest))
          = .ok found (skip rest) := by
  cases descending with
  | false =>
      refine ⟨none, rfl, Parser.optional_of_rejects (Parser.rejects_choice.mpr ?_)⟩
      simp only [List.forall_mem_cons, List.not_mem_nil, false_imp_iff, implies_true, and_true]
      exact ⟨(ends.words "DESCENDING" (by simp [itemWords])).bind,
        (ends.words "DESC" (by simp [itemWords])).bind,
        (ends.words "ASCENDING" (by simp [itemWords])).bind,
        (ends.words "ASC" (by simp [itemWords])).bind⟩
  | true =>
      refine ⟨some true, rfl, Parser.optional_of_ok
        (Parser.choice_eq_ok.mpr (.there ?_ (.here ?_)))⟩
      · have word : IsWord "DESC" := by decide
        have here : skip ("DESC".toList ++ rest) = "DESC".toList ++ rest := rfl
        have other : (keyword "DESCENDING").Rejects ("DESC".toList ++ rest) :=
          keyword_rejects_word (by decide) here
            (fun c member => isWordChar_of_isAlpha (word.letters c member))
            ends.stops.word (by decide)
        exact other.bind
      · exact keywordAs_read (by decide) ends.stops.word true

/-- A sort key is read back. -/
theorem sortItem_read {item : SortItem} (printable : item.expr.Printable) (ends : ItemEnds rest)
    : sortItem (item.print ++ rest) = .ok item (skip rest) := by
  obtain ⟨e, descending⟩ := item
  have stops : Stops 0 ((if descending then ' ' :: "DESC".toList else []) ++ rest) := by
    cases descending with
    | false => exact ends.stops
    | true => exact stops_word (by decide) ends.stops.word (by decide)
  obtain ⟨found, same, order⟩ := descending_read descending ends
  rw [SortItem.print, List.append_assoc, sortItem,
    Parser.bind_of_ok (expression_read printable stops), Parser.bind_of_ok order,
    Parser.pure_eq, same]

end Items

structure Projection.Printable (projection : Projection) : Prop where
  nonempty : projection.items ≠ []
  plain : projection.seemsDistinct = false
  items : ∀ item ∈ projection.items, item.Printable
  orderBy : ∀ item ∈ projection.orderBy, item.expr.Printable
  skip : ∀ e ∈ projection.skip, e.Printable
  limit : ∀ e ∈ projection.limit, e.Printable

theorem Projection.Printable.undistinct {projection : Projection} (printable : projection.Printable)
    (none : projection.distinct = false)
    : opensDistinct (printList (projection.items.map ProjectionItem.print)) = false := by
  simpa [Projection.seemsDistinct, none] using printable.plain

section Projections

variable {words : List String} {rest : List Char}

/-- The sort keys of a projection are read back. -/
theorem orderByClause_read {items : List SortItem} (printable : ∀ item ∈ items, item.expr.Printable)
    (continues : Continues (sectionWords.drop 1) rest)
    : ∃ found,
        found.getD [] = items
        ∧ orderByClause.optional (skip (printOrder items ++ rest)) = .ok found (skip rest) := by
  have known : ∀ word ∈ sectionWords.drop 1, word ∈ sectionWords := by decide
  by_cases empty : items = []
  · subst empty
    have absent : (keyword "ORDER").Rejects (skip rest) :=
      continues.rejects known (by decide) (by decide) (by decide)
    exact ⟨none, rfl, Parser.optional_of_rejects absent.bind⟩
  · refine ⟨some items, rfl, Parser.optional_of_ok ?_⟩
    have solid : ∀ item ∈ items, Solid item.print :=
      fun item member => solid_append (printable item member).leads.solid
    have one : ∀ item ∈ items, ∀ tail, ItemEnds tail →
        ∃ value, item = value ∧ sortItem (item.print ++ tail) = .ok value (Cypher.skip tail) :=
      fun item member tail ends => ⟨item, rfl, sortItem_read (printable item member) ends⟩
    obtain ⟨values, same, reads⟩ := separated1_printList empty one solid itemEnds_comma
      (continues.itemEnds known) (continues.lacks_comma known)
    rw [List.forall₂_eq_eq_eq] at same
    rw [← same] at reads
    obtain ⟨first, others, rfl⟩ := List.exists_cons_of_ne_nil empty
    have listed : Solid (printList ((first :: others).map SortItem.print)) :=
      solid_append (solid first (by simp))
    have order : keyword "ORDER" (skip (printOrder (first :: others) ++ rest))
        = .ok ()
          ("BY".toList ++ ' ' :: (printList ((first :: others).map SortItem.print) ++ rest)) := by
      have read := @keyword_after rest "ORDER" (by decide)
        ("BY".toList ++ ' ' :: printList ((first :: others).map SortItem.print))
        ⟨'B', _, rfl, by decide⟩
      rwa [List.append_assoc] at read
    have by'
        : keyword "BY"
          ("BY".toList ++ ' ' :: (printList ((first :: others).map SortItem.print) ++ rest))
        = .ok () (printList ((first :: others).map SortItem.print) ++ rest) := by
      have here
          : skip ("BY".toList ++ ' ' :: (printList ((first :: others).map SortItem.print) ++ rest))
          = "BY".toList ++ ' ' :: (printList ((first :: others).map SortItem.print) ++ rest) := rfl
      rw [keyword_read (by decide) here (wordEnds_cons (by decide)), skip_space, listed.skip_append]
    rw [orderByClause, Parser.bind_of_ok order, Parser.bind_of_ok by']
    exact Parser.within_of_ok (Parser.committed_of_ok reads) _

/-- The items of a projection are read back up to their texts. -/
theorem projectionItems_read {items : List ProjectionItem} (nonempty : items ≠ [])
    (printable : ∀ item ∈ items, item.Printable) (continues : Continues sectionWords rest)
    : ∃ again : List ProjectionItem,
        again.map ProjectionItem.unworded = items.map ProjectionItem.unworded
        ∧ (Parser.separated1 (mark ',') projectionItem).committed.within .projectionItems
              (printList (items.map ProjectionItem.print) ++ rest)
          = .ok again (skip rest) := by
  have known : ∀ word ∈ sectionWords, word ∈ sectionWords := fun _ => id
  have solid : ∀ item ∈ items, Solid item.print :=
    fun item member => solid_append (printable item member).expr.leads.solid
  have one : ∀ item ∈ items, ∀ tail, ItemEnds tail →
      ∃ again : ProjectionItem, again.unworded = item.unworded
        ∧ projectionItem (item.print ++ tail) = .ok again (skip tail) :=
    fun item member tail ends => projectionItem_read (printable item member) ends
  obtain ⟨again, same, reads⟩ := separated1_printList nonempty one solid itemEnds_comma
    (continues.itemEnds known) (continues.lacks_comma known)
  exact ⟨again, Plan.map_eq_of_forall₂ same fun _ _ same => same,
    Parser.within_of_ok (Parser.committed_of_ok reads) _⟩

/-- The items of a projection open with an expression. -/
theorem leads_projectionItems {items : List ProjectionItem} (nonempty : items ≠ [])
    (printable : ∀ item ∈ items, item.Printable)
    : Leads 0 (printList (items.map ProjectionItem.print)) := by
  obtain ⟨first, others, rfl⟩ := List.exists_cons_of_ne_nil nonempty
  have leads : Leads 0 first.expr.print :=
    (printable first (by simp)).expr.leads.mono (Nat.zero_le _)
  have opens : Leads 0 first.print := by
    unfold ProjectionItem.print
    cases first.aliasName with
    | none => simpa [printOption] using leads
    | some name => exact leads.append (by decide)
  exact opens.printList

/-- A projection is read back up to the texts of its items. -/
theorem projection_read {written : Projection} (printable : written.Printable)
    (continues : Continues (sectionWords.drop 3) rest)
    : ∃ again : Projection,
        again.unworded = written.unworded
        ∧ projection (skip (written.print ++ rest)) = .ok again (skip rest) := by
  obtain ⟨distinct, items, orderBy, skipped, limit⟩ := written
  have known (n : Nat) : ∀ word ∈ sectionWords.drop n, word ∈ sectionWords :=
    fun word => List.mem_of_mem_drop
  have limits : Continues (sectionWords.drop 2) (printPart "LIMIT" limit ++ rest) :=
    (continues.mono (by decide)).printPart (by decide)
  have skips : Continues (sectionWords.drop 1)
      (printPart "SKIP" skipped ++ (printPart "LIMIT" limit ++ rest)) :=
    (limits.mono (by decide)).printPart (by decide)
  have orders : Continues sectionWords
      (printOrder orderBy ++ (printPart "SKIP" skipped ++ (printPart "LIMIT" limit ++ rest))) := by
    cases orderBy with
    | nil => exact skips.mono (by decide)
    | cons => exact continues_printAfter (by decide)
  have noSkip : (keyword "SKIP").Rejects (skip (printPart "LIMIT" limit ++ rest)) :=
    limits.rejects_head (known 2) (by decide) (by decide)
  have noLimit : (keyword "LIMIT").Rejects (skip rest) :=
    continues.rejects (known 3) (by decide) (by decide) (by decide)
  have leads := leads_projectionItems printable.nonempty printable.items
  obtain ⟨again, same, itemsRead⟩ := projectionItems_read printable.nonempty printable.items orders
  obtain ⟨found, isDistinct, distinctRead⟩ := distinct_read distinct (leads.solid.skip_append _)
    fun none => leads.distinct (printable.undistinct none) _ (orders.stops (known 0)).word
  obtain ⟨keys, areKeys, orderRead⟩ := orderByClause_read printable.orderBy skips
  have skipRead :=
    pageClause_read (by decide) printable.skip (limits.stops (known 2)) noSkip .skipClause
  have limitRead :=
    pageClause_read (by decide) printable.limit (continues.stops (known 3)) noLimit .limitClause
  have start : skip ((Projection.mk distinct items orderBy skipped limit).print ++ rest)
      = (if distinct then "DISTINCT".toList ++ [' '] else [])
        ++ (printList (items.map ProjectionItem.print) ++ (printOrder orderBy
          ++ (printPart "SKIP" skipped ++ (printPart "LIMIT" limit ++ rest)))) := by
    simp only [Projection.print, List.append_assoc]
    cases distinct with
    | false => exact leads.solid.skip_append _
    | true => rfl
  refine ⟨⟨distinct, again, orderBy, skipped, limit⟩, ?_, ?_⟩
  · simp only [Projection.unworded, same]
  · rw [start, projection, Parser.bind_of_ok distinctRead, Parser.bind_of_ok itemsRead,
      Parser.bind_of_ok orderRead, Parser.bind_of_ok skipRead, Parser.bind_of_ok limitRead,
      Parser.pure_eq, isDistinct, areKeys]

end Projections

structure MatchClause.Printable (clause : MatchClause) : Prop where
  nonempty : clause.patterns ≠ []
  patterns : ∀ path ∈ clause.patterns, path.Printable
  condition : ∀ e ∈ clause.condition, e.Printable

/-- A clause that is read from some text and has a canonical one. -/
def Clause.Printable : Clause → Prop
  | .matching clause => clause.Printable
  | .withItems projection condition => projection.Printable ∧ ∀ e ∈ condition, e.Printable
  | .returnItems projection => projection.Printable

section Clauses

variable {rest : List Char}

theorem clauseWords_known : ∀ word ∈ clauseWords, word ∈ sectionWords := by
  decide

/-- A condition is read where it stands. -/
theorem whereClause_read {condition : Option Expr} (printable : ∀ e ∈ condition, e.Printable)
    (continues : Continues clauseWords rest)
    : whereClause.optional (skip (printPart "WHERE" condition ++ rest))
      = .ok condition (skip rest) :=
  pageClause_read (by decide) printable (continues.stops clauseWords_known)
    (continues.rejects clauseWords_known (by decide) (by decide) (by decide)) .whereClause

theorem solid_path (path : PathPattern) : Solid path.print := by
  unfold PathPattern.print
  cases path.name with
  | none => exact ⟨'(', _, rfl, by decide⟩
  | some name => exact ⟨'`', _, rfl, by decide⟩

/-- The patterns of a match are read back. -/
theorem pathPatterns_read {patterns : List PathPattern} (nonempty : patterns ≠ [])
    (printable : ∀ path ∈ patterns, path.Printable) {words : List String}
    (continues : Continues words rest)
    (known : ∀ word ∈ words, word ∈ sectionWords)
    : (Parser.separated1 (mark ',') pathPattern).committed.within .matchClause
          (printList (patterns.map PathPattern.print) ++ rest)
      = .ok patterns (skip rest) := by
  have one : ∀ path ∈ patterns, ∀ tail, Stops 0 tail →
      ∃ value, path = value ∧ pathPattern (path.print ++ tail) = .ok value (skip tail) := by
    intro path member tail stops
    refine ⟨path, rfl, ?_⟩
    rw [← (solid_path path).skip_append, pathPattern_read (printable path member) stops]
  obtain ⟨values, same, reads⟩ := separated1_printList nonempty one (fun path _ => solid_path path)
    (fun _ => stops_mark (by simp)) (continues.stops known) (continues.lacks_comma known)
  rw [List.forall₂_eq_eq_eq] at same
  rw [← same] at reads
  exact Parser.within_of_ok (Parser.committed_of_ok reads) _

/-- A match is read back. -/
theorem matchClause_read {written : MatchClause} (printable : written.Printable)
    (continues : Continues clauseWords rest)
    : matchClause (skip (written.print ++ rest)) = .ok written (skip rest) := by
  obtain ⟨isOptional, patterns, condition⟩ := written
  have follow : Continues (sectionWords.drop 3) (printPart "WHERE" condition ++ rest) :=
    (continues.mono (by decide)).printPart (by decide)
  have patternsRead := pathPatterns_read printable.nonempty printable.patterns follow (by decide)
  have start : skip ((MatchClause.mk isOptional patterns condition).print ++ rest)
      = (if isOptional then "OPTIONAL".toList ++ [' '] else []) ++ ("MATCH".toList
          ++ ' ' :: (printList (patterns.map PathPattern.print)
            ++ (printPart "WHERE" condition ++ rest))) := by
    simp only [MatchClause.print, List.append_assoc, List.cons_append]
    cases isOptional with
    | false => rfl
    | true => rfl
  have solid
      : skip (printList (patterns.map PathPattern.print) ++ (printPart "WHERE" condition ++ rest))
      = printList (patterns.map PathPattern.print) ++ (printPart "WHERE" condition ++ rest) := by
    obtain ⟨first, others, rfl⟩ := List.exists_cons_of_ne_nil printable.nonempty
    rw [List.map_cons, printList, List.append_assoc, (solid_path first).skip_append]
  have word : keyword "MATCH" ("MATCH".toList
      ++ ' ' :: (printList (patterns.map PathPattern.print)
        ++ (printPart "WHERE" condition ++ rest)))
      = .ok () (printList (patterns.map PathPattern.print)
        ++ (printPart "WHERE" condition ++ rest)) := by
    have read : keyword "MATCH" ("MATCH".toList
        ++ ' ' :: (printList (patterns.map PathPattern.print)
          ++ (printPart "WHERE" condition ++ rest)))
        = .ok () (skip (printList (patterns.map PathPattern.print)
            ++ (printPart "WHERE" condition ++ rest))) := rfl
    rw [read, solid]
  have opening : ∃ found : Option Unit, found.isSome = isOptional
      ∧ (keyword "OPTIONAL").optional ((if isOptional then "OPTIONAL".toList ++ [' '] else [])
          ++ ("MATCH".toList ++ ' ' :: (printList (patterns.map PathPattern.print)
            ++ (printPart "WHERE" condition ++ rest))))
        = .ok found ("MATCH".toList ++ ' ' :: (printList (patterns.map PathPattern.print)
            ++ (printPart "WHERE" condition ++ rest))) := by
    cases isOptional with
    | false => exact ⟨none, rfl, rfl⟩
    | true => exact ⟨some (), rfl, rfl⟩
  obtain ⟨found, isSome, optionalRead⟩ := opening
  rw [start, matchClause, Parser.bind_of_ok optionalRead, Parser.bind_of_ok word,
    Parser.bind_of_ok patternsRead, Parser.bind_of_ok
      (whereClause_read printable.condition continues),
    Parser.pure_eq, isSome]

/-- A clause is read back up to the texts of its items. -/
theorem clause_read {written : Clause} (printable : written.Printable)
    (continues : Continues clauseWords rest)
    : ∃ again : Clause,
        again.unworded = written.unworded
        ∧ clause (skip (written.print ++ rest)) = .ok again (skip rest) := by
  cases written with
  | matching written =>
      refine ⟨.matching written, rfl, Parser.choice_eq_ok.mpr (.here ?_)⟩
      exact Parser.bind_of_ok (matchClause_read printable continues)
  | withItems written condition =>
      have follow : Continues (sectionWords.drop 3) (printPart "WHERE" condition ++ rest) :=
        (continues.mono (by decide)).printPart (by decide)
      obtain ⟨again, same, reads⟩ := projection_read printable.1 follow
      refine ⟨.withItems again condition, by simp only [Clause.unworded, same], ?_⟩
      have whole : skip ((Clause.withItems written condition).print ++ rest)
          = "WITH".toList ++ ' ' :: (written.print ++ (printPart "WHERE" condition ++ rest)) := by
        rw [← List.append_assoc]
        rfl
      rw [whole]
      refine Parser.choice_eq_ok.mpr (.there ⟨_, rfl⟩ (.here ?_))
      exact (Parser.bind_of_ok rfl).trans ((Parser.bind_of_ok reads).trans
        (Parser.bind_of_ok (whereClause_read printable.2 continues)))
  | returnItems written =>
      obtain ⟨again, same, reads⟩ := projection_read printable (continues.mono (by decide))
      refine ⟨.returnItems again, by simp only [Clause.unworded, same], ?_⟩
      have whole : skip ((Clause.returnItems written).print ++ rest)
          = "RETURN".toList ++ ' ' :: (written.print ++ rest) := rfl
      rw [whole]
      refine Parser.choice_eq_ok.mpr (.there ⟨_, rfl⟩ (.there ⟨_, rfl⟩ (.here ?_)))
      exact (Parser.bind_of_ok rfl).trans (Parser.bind_of_ok reads)

/-- A clause opens with a word of its own. -/
theorem continues_clause (written : Clause) (tail : List Char)
    : Continues clauseWords (' ' :: written.print ++ tail) := by
  have opens (word : String) (more : List Char) (listed : word ∈ clauseWords)
      (whole : written.print = word.toList ++ ' ' :: more)
      : Continues clauseWords (' ' :: written.print ++ tail) := by
    rw [whole, List.cons_append, List.append_assoc]
    exact .word listed
  cases written with
  | matching clause =>
      obtain ⟨isOptional, patterns, condition⟩ := clause
      have whole : (Clause.matching ⟨isOptional, patterns, condition⟩).print
          = (if isOptional then "OPTIONAL".toList ++ [' '] else []) ++ ("MATCH".toList
            ++ ' ' :: (printList (patterns.map PathPattern.print)
              ++ printPart "WHERE" condition)) := by
        change (MatchClause.mk isOptional patterns condition).print = _
        simp only [MatchClause.print, List.append_assoc, List.cons_append]
      cases isOptional with
      | false => exact opens "MATCH" _ (by decide) whole
      | true => exact opens "OPTIONAL" _ (by decide) whole
  | withItems projection condition =>
      refine opens "WITH" (projection.print ++ printPart "WHERE" condition) (by decide) ?_
      rfl
  | returnItems projection => exact opens "RETURN" _ (by decide) rfl

theorem solid_clause (written : Clause) : Solid written.print := by
  cases written with
  | matching clause =>
      obtain ⟨isOptional, patterns, condition⟩ := clause
      cases isOptional with
      | false => exact ⟨'M', _, rfl, by decide⟩
      | true => exact ⟨'O', _, rfl, by decide⟩
  | withItems projection condition => exact ⟨'W', _, rfl, by decide⟩
  | returnItems projection => exact ⟨'R', _, rfl, by decide⟩

/-- Clauses are read back one after the other, up to the texts of their items. -/
theorem clauses_read {clauses : List Clause} (nonempty : clauses ≠ [])
    (printable : ∀ written ∈ clauses, written.Printable)
    : ∃ again : List Clause,
        again.map Clause.unworded = clauses.map Clause.unworded
        ∧ Parser.many1 clause (printClauses clauses) = .ok again [] := by
  obtain ⟨first, others, rfl⟩ := List.exists_cons_of_ne_nil nonempty
  rw [List.forall_mem_cons] at printable
  have follow
      : Continues clauseWords (others.flatMap (fun written => ' ' :: written.print) ++ []) := by
    cases others with
    | nil => exact .done
    | cons second others =>
        rw [List.flatMap_cons, List.append_assoc]
        exact continues_clause second _
  have one : ∀ written ∈ others, ∀ tail, Continues clauseWords tail →
      ∃ again : Clause, again.unworded = written.unworded
        ∧ clause (skip (' ' :: written.print ++ tail)) = .ok again (skip tail) :=
    fun written member tail continues => clause_read (printable.2 written member) continues
  have visible : ∀ written ∈ others, Visible (' ' :: written.print) := by
    intro written _
    obtain ⟨c, letters, opens, noSpace⟩ := solid_clause written
    exact ⟨c, by simp [opens], noSpace⟩
  obtain ⟨head, sameHead, headRead⟩ := clause_read printable.1 follow
  obtain ⟨more, sameMore, moreRead⟩ := @Parser.manyAfter_related _ _ [] _ _ others _ _ [head] one
    visible (fun written _ tail => continues_clause written tail) .done ⟨_, rfl⟩
  refine ⟨head :: more, Plan.map_eq_of_forall₂ (.cons sameHead sameMore) fun _ _ same => same, ?_⟩
  rw [(solid_clause first).skip_append, List.append_nil] at headRead
  rw [List.append_nil] at moreRead
  rw [printClauses, Parser.many1_of_ok headRead moreRead]
  simp

end Clauses

/-- A query that is read from some text and has a canonical one. -/
structure Query.Printable (query : Query) : Prop where
  nonempty : query.clauses ≠ []
  clauses : ∀ clause ∈ query.clauses, clause.Printable

/-- A query is read back from its canonical text, up to the texts of its items. -/
theorem Query.Printable.reads_back {query : Query} (printable : query.Printable)
    : ∃ again, Query.parse query.print = .ok again ∧ again.unworded = query.unworded := by
  obtain ⟨again, same, reads⟩ := clauses_read printable.nonempty printable.clauses
  have solid : skip (printClauses query.clauses) = printClauses query.clauses := by
    obtain ⟨first, others, whole⟩ := List.exists_cons_of_ne_nil printable.nonempty
    rw [whole, printClauses, (solid_clause first).skip_append]
  have leading : blanks (printClauses query.clauses) = .ok () (printClauses query.clauses) :=
    congrArg _ solid
  have noMark : (mark ';').optional [] = .ok none [] := rfl
  refine ⟨⟨again⟩, Query.parse_eq_ok.mpr ⟨[], ?_, rfl⟩, by simp only [Query.unworded, same]⟩
  rw [Query.print, String.toList_ofList, statement, Parser.bind_of_ok leading,
    Parser.bind_of_ok reads, Parser.bind_of_ok noMark, Parser.pure_eq]

end CypherSql.Cypher
