import CypherSql.Proofs.Rereading.Negations

/-! The texts of the columns that a query projects. Each is a part of the source without blanks at
its ends, and alone it is read as the expression that it is the text of.
-/

namespace CypherSql.Cypher

open Text

/-- A parser reads a value somewhere in a source. -/
def Parser.Finds {α : Type} (p : Parser α) (source : List Char) (value : α) : Prop :=
  ∃ place rest, place <:+ source ∧ p place = .ok value rest

namespace Parser

section Finds

variable {α β : Type} {p : Parser α} {separator : Parser β} {least : Nat} {value : α}
  {values seen : List α}
  {source place rest : List Char}

theorem Finds.mono (finds : p.Finds place value) (inside : place <:+ source)
    : p.Finds source value := by
  obtain ⟨start, rest, starts, read⟩ := finds
  exact ⟨start, rest, starts.trans inside, read⟩

theorem finds_of_ok (read : p source = .ok value rest) : p.Finds source value :=
  ⟨source, rest, List.suffix_refl source, read⟩

/-- As many values as there are were read in the source each, apart from those that were there
before.
-/
theorem manyAfter_finds (advances : p.Advances least)
    (read : manyAfter p seen source = .ok values rest)
    : ∀ value ∈ values, value ∈ seen ∨ p.Finds source value := by
  rw [manyAfter_eq] at read
  refine (@Ensures.iterate_at (List α) (manyStep p)
    (fun found place => place <:+ source ∧ ∀ value ∈ found, value ∈ seen ∨ p.Finds source value)
    _ _ _ _ ?_ ?_
    ⟨List.suffix_refl source, fun _ => .inl⟩ read).2
  · rintro found place next later ⟨inside, each⟩ step
    obtain ⟨value, one, rfl⟩ := manyStep_eq_some step
    exact ⟨(advances.suffix one).trans inside,
      List.forall_mem_cons.mpr ⟨.inr ((finds_of_ok one).mono inside), each⟩⟩
  · rintro found place later ⟨inside, each⟩ step
    rw [manyStep_stays step]
    exact ⟨inside, each⟩

theorem many1_finds (advances : p.Advances least) (read : many1 p source = .ok values rest)
    : ∀ value ∈ values, p.Finds source value := by
  obtain ⟨first, middle, one, more⟩ := bind_eq_ok.mp read
  obtain ⟨seen, _, others, same⟩ := bind_eq_ok.mp more
  cases same
  have opening : p source = .ok first middle := by
    split at one
    · cases one
    · exact one
  intro value member
  rcases manyAfter_finds advances others value (List.mem_reverse.mp member) with earlier | later
  · obtain rfl := List.mem_singleton.mp earlier
    exact finds_of_ok opening
  · exact later.mono (advances.suffix opening)

theorem separated1_finds (separates : separator.Advances 0) (advances : p.Advances 0)
    (read : separated1 separator p source = .ok values rest)
    : ∀ value ∈ values, p.Finds source value := by
  obtain ⟨first, middle, opening, more⟩ := bind_eq_ok.mp read
  obtain ⟨seen, _, others, same⟩ := bind_eq_ok.mp more
  cases same
  intro value member
  have next : (separator >>= fun _ => p).Advances 0 := separates.bind fun _ => advances
  rcases manyAfter_finds next others value (List.mem_reverse.mp member) with earlier | later
  · obtain rfl := List.mem_singleton.mp earlier
    exact finds_of_ok opening
  · obtain ⟨place, after, inside, read⟩ := later
    obtain ⟨_, start, comma, read⟩ := bind_eq_ok.mp read
    exact (finds_of_ok read).mono
      ((separates.suffix comma).trans (inside.trans (advances.suffix opening)))

theorem committed_eq_ok (read : p.committed source = .ok value rest)
    : p source = .ok value rest := by
  unfold committed at read
  split at read
  · cases read
  · exact read

theorem within_eq_ok {complaint : Complaint} (read : p.within complaint source = .ok value rest)
    : p source = .ok value rest := by
  unfold within at read
  split at read
  · rename_i found
    cases read
    exact found
  · cases read
  · cases read

end Finds

end Parser

section Items

variable {source rest : List Char}

theorem projection_finds {read : Projection} (reads : projection source = .ok read rest)
    : ∀ item ∈ read.items, projectionItem.Finds source item := by
  obtain ⟨distinct, middle, opens, reads⟩ := Parser.bind_eq_ok.mp reads
  obtain ⟨items, _, listed, reads⟩ := Parser.bind_eq_ok.mp reads
  obtain ⟨orderBy, _, -, reads⟩ := Parser.bind_eq_ok.mp reads
  obtain ⟨skipped, _, -, reads⟩ := Parser.bind_eq_ok.mp reads
  obtain ⟨limit, _, -, same⟩ := Parser.bind_eq_ok.mp reads
  cases same
  have inside : middle <:+ source := (keyword_advances (by decide)).optional.suffix opens
  have each := Parser.separated1_finds (mark_advances ',').anyway projectionItem_advances.anyway
    (Parser.committed_eq_ok (Parser.within_eq_ok listed))
  exact fun item member => (each item member).mono inside

/-- The items of a clause are read in it, whichever of the clauses with items it is. -/
theorem clause_finds {read : Clause} (reads : clause source = .ok read rest)
    {projected : Projection}
    (projects : read.projection? = some projected)
    : ∀ item ∈ projected.items, projectionItem.Finds source item := by
  obtain ⟨p, member, reads⟩ := (Parser.choice_eq_ok.mp reads).exists_mem
  simp only [List.mem_cons, List.not_mem_nil, or_false] at member
  rcases member with rfl | rfl | rfl
  · obtain ⟨matched, _, -, same⟩ := Parser.bind_eq_ok.mp reads
    cases same
    cases projects
  · obtain ⟨_, middle, word, reads⟩ := Parser.bind_eq_ok.mp reads
    obtain ⟨projection, _, listed, reads⟩ := Parser.bind_eq_ok.mp reads
    obtain ⟨condition, _, -, same⟩ := Parser.bind_eq_ok.mp reads
    cases same
    cases projects
    exact fun item member =>
      (projection_finds listed item member).mono ((keyword_advances (by decide)).suffix word)
  · obtain ⟨_, middle, word, reads⟩ := Parser.bind_eq_ok.mp reads
    obtain ⟨projection, _, listed, same⟩ := Parser.bind_eq_ok.mp reads
    cases same
    cases projects
    exact fun item member =>
      (projection_finds listed item member).mono ((keyword_advances (by decide)).suffix word)

/-- The items of a query are read in its source. -/
theorem Query.parse_finds {source : String} {query : Query}
    (parsed : Query.parse source = .ok query)
    {read : Clause} (member : read ∈ query.clauses) {projected : Projection}
    (projects : read.projection? = some projected)
    : ∀ item ∈ projected.items, projectionItem.Finds source.toList item := by
  obtain ⟨rest, reads, -⟩ := Query.parse_eq_ok.mp parsed
  obtain ⟨_, middle, gap, reads⟩ := Parser.bind_eq_ok.mp reads
  obtain ⟨clauses, _, listed, reads⟩ := Parser.bind_eq_ok.mp reads
  obtain ⟨semicolon, _, -, same⟩ := Parser.bind_eq_ok.mp reads
  cases same
  obtain ⟨place, after, inside, found⟩ := Parser.many1_finds clause_advances listed read member
  have starts : place <:+ source.toList := inside.trans (Parser.Advances.blanks.suffix gap)
  exact fun item member => (clause_finds found projects item member).mono starts

end Items

/-- Blanks around a text without any at its ends are cut off. -/
theorem Trimmed.trim_eq {text before behind : List Char} (trimmed : Trimmed text)
    (leads : ∀ c ∈ before, isBlank c) (trails : ∀ c ∈ behind, isBlank c)
    : Text.trim (before ++ (text ++ behind)) = text := by
  obtain ⟨c, opens, first⟩ := trimmed.first
  obtain ⟨d, ends, last⟩ := trimmed.last
  obtain ⟨others, rfl⟩ := List.head?_eq_some_iff.mp opens
  have front : (before ++ (c :: others ++ behind)).dropWhile isBlank = c :: others ++ behind := by
    rw [List.dropWhile_append_of_pos leads, List.cons_append,
      List.dropWhile_cons_of_neg (by simp [first])]
  obtain ⟨earlier, whole⟩ := List.getLast?_eq_some_iff.mp ends
  rw [Text.trim, front, whole, Text.trimEnd, List.reverse_append,
    List.dropWhile_append_of_pos fun c member =>
      trails c (List.mem_reverse.mp member), List.reverse_append,
    List.reverse_singleton, List.singleton_append, List.dropWhile_cons_of_neg (by simp [last])]
  simp

/-- What a parser takes is a text with the blanks around it. -/
theorem exists_around {source text tail : List Char} (here : skip source = text ++ tail)
    : ∃ before behind,
        source = before ++ (text ++ behind) ++ skip tail
        ∧ (∀ c ∈ before, isSpace c)
        ∧ ∀ c ∈ behind, isSpace c := by
  obtain ⟨before, leads, spaces⟩ := exists_skipped source
  obtain ⟨behind, trails, others⟩ := exists_skipped tail
  refine ⟨before, behind, ?_, spaces, others⟩
  rw [leads, here]
  conv_lhs => rw [trails]
  simp

/-- The text of what is read, without the blanks around it. -/
theorem trim_taken {source text tail : List Char} (here : skip source = text ++ tail)
    (trimmed : Trimmed text)
    : Text.trim (source.take (source.length - (skip tail).length)) = text := by
  obtain ⟨before, behind, whole, spaces, others⟩ := exists_around here
  conv_lhs => rw [whole]
  rw [List.length_append, Nat.add_sub_cancel, List.take_left]
  exact trimmed.trim_eq (fun c member => isBlank_of_isSpace (spaces c member))
    fun c member => isBlank_of_isSpace (others c member)

theorem projectionItem_text {source rest : List Char} {item : ProjectionItem}
    (read : projectionItem source = .ok item rest)
    : item.text.toList <:+: source
      ∧ Trimmed item.text.toList
      ∧ expression item.text.toList = .ok item.expr [] := by
  obtain ⟨⟨value, text⟩, middle, reads, more⟩ := Parser.bind_eq_ok.mp read
  obtain ⟨aliasName, _, -, same⟩ := Parser.bind_eq_ok.mp more
  cases same
  split at reads
  · rename_i found
    cases reads
    obtain ⟨text, tail, here, rfl, trimmed, alone⟩ := expression_alone found
    obtain ⟨before, behind, whole, -, -⟩ := exists_around here
    rw [trim_taken here trimmed, String.toList_ofList]
    refine ⟨⟨before, behind ++ skip tail, ?_⟩, trimmed, alone⟩
    conv_rhs => rw [whole]
    simp
  · cases reads
  · cases reads

/-- The text of every item that a query projects is a part of the source without blanks at its ends.
Alone it is read to its end as the expression of the item.
-/
theorem column_texts_faithful {source : String} {query : Query}
    (parsed : Query.parse source = .ok query)
    : ∀ clause ∈ query.clauses,
        ∀ projection,
          clause.projection? = some projection
          → ∀ item ∈ projection.items,
              item.text.toList <:+: source.toList
              ∧ Trimmed item.text.toList
              ∧ expression item.text.toList = .ok item.expr [] := by
  intro clause member projection projects item listed
  obtain ⟨place, rest, inside, read⟩ := Query.parse_finds parsed member projects item listed
  obtain ⟨part, trimmed, alone⟩ := projectionItem_text read
  exact ⟨part.trans inside.isInfix, trimmed, alone⟩

/-- The texts of the items that the clauses of a query project. -/
def Query.itemTexts (query : Query) : List String :=
  query.clauses.flatMap fun clause =>
    clause.projection?.elim [] fun projection => projection.items.map fun item => item.text

/-- A query with blanks around its items, and a call of a function with the name of the negation. -/
theorem column_texts_spaced
    : ∃ query,
        Query.parse "MATCH (a) WITH  a .age AS b RETURN NOT(*)  , b+ 1" = .ok query
        ∧ query.itemTexts = ["a .age", "NOT(*)", "b+ 1"]
        ∧ ∀ clause ∈ query.clauses,
            ∀ projection,
              clause.projection? = some projection
              → ∀ item ∈ projection.items,
                  item.text.toList <:+: "MATCH (a) WITH  a .age AS b RETURN NOT(*)  , b+ 1".toList
                  ∧ Trimmed item.text.toList
                  ∧ expression item.text.toList = .ok item.expr [] := by
  have reached
      : ((Query.parse "MATCH (a) WITH  a .age AS b RETURN NOT(*)  , b+ 1").toOption.any fun query =>
      query.itemTexts = ["a .age", "NOT(*)", "b+ 1"]) = true := by
    rw [Query.toOption_parse, String.toList_ofList]
    decide +kernel
  cases parsed : Query.parse "MATCH (a) WITH  a .age AS b RETURN NOT(*)  , b+ 1" with
  | error trace =>
      rw [parsed] at reached
      cases reached
  | ok query =>
      rw [parsed] at reached
      exact ⟨query, rfl, of_decide_eq_true reached, column_texts_faithful parsed⟩

end CypherSql.Cypher
