import CypherSql.Proofs.Printing.Atoms

/-! Expressions are read back from their canonical texts, each at its own level and an operand at
the level that its place asks for, and so are patterns.
-/

namespace CypherSql.Cypher

section Expressions

variable {expr : Parser Expr} {size : Nat} {e : Expr}

/-- An expression is read in the place of an operand, in parentheses if it has to be. -/
theorem Inner.forms_enclosed (inner : Inner expr size) {least : Nat} (printable : e.Printable)
    (forms : Forms expr e.level e.print e) (within : least ≤ 9)
    (small : (enclosed least e.level e.print).length ≤ size)
    : Forms expr least (enclosed least e.level e.print) e := by
  unfold enclosed at small ⊢
  split at small
  · rename_i loose
    rw [if_pos loose]
    have reads : ReadsAtom expr ('(' :: e.print ++ [')']) e := by
      refine inner.readsAtom_parenthesized printable ?_
      simp only [List.length_append, List.length_cons] at small
      omega
    exact reads.looks.forms.lower (leads_of_mark (by simp)) le_rfl within
  · rename_i tight
    rw [if_neg tight]
    exact forms.lower printable.leads e.level_le (Nat.le_of_not_lt tight)

theorem length_enclosed_ge (least level : Nat) (text : List Char)
    : text.length ≤ (enclosed least level text).length := by
  unfold enclosed
  split
  · simp only [List.length_append, List.length_cons]
    omega
  · exact le_rfl

/-- A number with a sign is read as the number without it. -/
theorem forms_integer {value : Int} (bounded : value.natAbs ≤ Number.largestSigned64)
    : Forms expr (Expr.literal (.integer value)).level (Expr.literal (.integer value)).print
        (.literal (.integer value)) := by
  have reads := @readsAtom_number expr _ bounded
  simp only [Expr.level, Expr.print, printLiteral_integer]
  split
  · rename_i negative
    have number : Reads expr 8 (printNumber value.natAbs) (.literal (.integer value.natAbs)) :=
      reads.looks.reads.signed (leads_printNumber _)
    have same : negate (.literal (.integer value.natAbs)) = .literal (.integer value) := by
      rw [negate, Literal.negated?]
      simp only [Expr.literal.injEq, Literal.integer.injEq]
      omega
    rw [← same]
    exact (number.negate (@leads_printNumber 9 _).solid).forms (.inr rfl)
  · rename_i positive
    have same : (value.natAbs : Int) = value := by omega
    rw [same] at reads
    exact reads.looks.forms

/-- The text of an expression is read at its level, by induction over the expression. -/
theorem Inner.forms (inner : Inner expr size) (printable : e.Printable)
    (small : e.print.length ≤ size)
    : Forms expr e.level e.print e := by
  induction printable with
  | integer bounded => exact forms_integer bounded
  | boolean value => exact (readsAtom_boolean value).looks.forms
  | null => exact readsAtom_null.looks.forms
  | text inside => exact (readsAtom_text inside).looks.forms
  | var noQuote => exact (readsAtom_var noQuote).looks.forms
  | parameter nonempty isWord => exact (readsAtom_parameter nonempty isWord).looks.forms
  | list each => exact (inner.readsAtom_list each small).looks.forms
  | map keys each => exact (inner.readsAtom_map keys each small).looks.forms
  | @property base key printable noQuote ih =>
      simp only [Expr.print, List.length_append, List.length_cons] at small
      have more := length_enclosed_ge 9 base.level base.print
      have forms := inner.forms_enclosed printable (ih (by omega)) le_rfl (by omega)
      exact ((forms.looks rfl).property noQuote).forms
  | @unary op operand printable apart ih =>
      -- An operand is shorter than the whole, with the parentheses around it too.
      have place (least : Nat) (within : least ≤ 9)
          (short : (enclosed least operand.level operand.print).length ≤ size)
          : Forms expr least (enclosed least operand.level operand.print) operand := by
        have more := length_enclosed_ge least operand.level operand.print
        exact inner.forms_enclosed printable (ih (by omega)) within short
      have solid (least : Nat) : Solid (enclosed least operand.level operand.print) :=
        printable.leads.enclosed.solid
      cases op with
      | not =>
          simp only [Expr.print, List.length_append, List.length_cons] at small
          exact ((place 3 (by decide) (by omega)).reads.not (solid 3)).forms (.inl rfl)
      | negation =>
          simp only [Expr.print, List.length_cons] at small
          have reads := (place 8 (by decide) (by omega)).reads.negate (solid 8)
          rw [apart rfl] at reads
          exact reads.forms (.inr rfl)
      | isNull =>
          simp only [Expr.print, List.length_append, List.length_cons] at small
          have loops := (place 4 (by decide) (by omega)).loops (by decide)
          exact (loops.nullTest false).forms (by decide)
      | isNotNull =>
          simp only [Expr.print, List.length_append, List.length_cons] at small
          have loops := (place 4 (by decide) (by omega)).loops (by decide)
          exact (loops.nullTest true).forms (by decide)
  | @binary op left right first second ihLeft ihRight =>
      simp only [Expr.print, List.length_append, List.length_cons] at small
      have moreLeft := length_enclosed_ge op.level left.level left.print
      have moreRight := length_enclosed_ge (op.level + 1) right.level right.print
      have within : op.level + 1 ≤ 9 := by cases op <;> decide
      have forms : Forms expr op.level (enclosed op.level left.level left.print) left :=
        inner.forms_enclosed first (ihLeft (by omega)) (by omega) (by omega)
      have operand := inner.forms_enclosed second (ihRight (by omega)) within (by omega)
      have loops := (forms.loops (level_mem_loopLevels op)).binary operand.reads
        second.leads.enclosed.solid
      exact loops.forms (level_mem_loopLevels op)
  | call distinct named whole each plain =>
      exact (inner.readsAtom_call named whole distinct each plain small).looks.forms
  | callAll distinct named whole => exact (named.readsAtom_all whole distinct).looks.forms

/-- The parser of whole expressions reads the texts that are shorter than its bound, by induction
over the bound.
-/
theorem expressionWithin_inner (size : Nat) : Inner (expressionWithin size) size := by
  induction size with
  | zero =>
      exact {
        reads := fun _ _ impossible => absurd impossible (Nat.not_lt_zero _)
        rejects := fun _ _ _ => Parser.rejects_reject _
      }
  | succ size ih =>
      refine {
        reads := fun e printable small rest stops => ?_
        rejects := fun c closes tail => ?_
      }
      · have forms := ih.forms printable (Nat.le_of_lt_succ small)
        have loosest := forms.lower printable.leads e.level_le (Nat.zero_le _)
        exact loosest.reads rest stops (e.print.length + 1) (Nat.lt_succ_self _)
      · have within : c ∈ ['.', ')', ']', ':', '*'] :=
          List.mem_cons_of_mem _ (List.mem_append_left [':', '*'] closes)
        exact @levelWithin_rejects (expressionWithin size) 0 c within tail (by decide) 0

/-- The text of an expression is read back wherever an expression may end after it. -/
theorem expression_read {rest : List Char} (printable : e.Printable) (stops : Stops 0 rest)
    : expression (e.print ++ rest) = .ok e (skip rest) := by
  refine (expressionWithin_inner _).reads e printable ?_ rest stops
  rw [List.length_append]
  omega

/-- An expression may stand in brackets of any length. -/
theorem expression_inner (size : Nat) : Inner expression size where
  reads := fun _ printable _ _ stops => expression_read printable stops
  rejects := fun c closes tail => by
    obtain ⟨trace, rejected⟩ :=
      (expressionWithin_inner ((c :: tail).length + 1)).rejects c closes tail
    exact ⟨trace, rejected⟩

end Expressions

section Parts

variable {α : Type} {p : Parser α} {print : α → List Char} {value : Option α} {tail : List Char}

/-- A part that may be missing is read where it stands. -/
theorem optional_printOption
    (reads : ∀ a, value = some a → p (skip (print a ++ tail)) = .ok a (skip tail))
    (rejects : value = none → p.Rejects (skip tail))
    : p.optional (skip (printOption print value ++ tail)) = .ok value (skip tail) := by
  cases value with
  | none => exact Parser.optional_of_rejects (rejects rfl)
  | some a => exact Parser.optional_of_ok (reads a rfl)

theorem mark_here {c : Char} (noSpace : isSpace c = false)
    : mark c (skip (c :: tail)) = .ok () (skip tail) :=
  mark_read (by rw [skip_skip, skip_cons noSpace])

theorem padded_here {text : List Char} {a : α} (solid : Solid text)
    (read : p (text ++ tail) = .ok a tail)
    : padded p (skip (text ++ tail)) = .ok a (skip tail) := by
  rw [solid.skip_append, padded_read solid read]

theorem padded_identifier_here {name : String} (noQuote : '`' ∉ name.toList)
    : padded identifier (skip (printName name ++ tail)) = .ok name (skip tail) :=
  padded_here (solid_printName name) (identifier_read noQuote tail)

theorem padded_symbol_here {name : String} (noQuote : '`' ∉ name.toList)
    : padded symbol (skip (printName name ++ tail)) = .ok name (skip tail) :=
  padded_here (solid_printName name) (symbol_read noQuote tail)

end Parts

/-- The properties of a pattern that is read from some text and has a canonical one. -/
def Properties.Printable (properties : Properties) : Prop :=
  ∀ entries ∈ properties, ∀ entry ∈ entries, '`' ∉ entry.1.toList ∧ entry.2.Printable

structure NodePattern.Printable (node : NodePattern) : Prop where
  name : ∀ name ∈ node.name, '`' ∉ name.toList
  labels : ∀ label ∈ node.labels, '`' ∉ label.toList
  properties : node.properties.Printable

section Nodes

variable {rest : List Char}

theorem mapLiteral_read {entries : List (String × Expr)}
    (printable : ∀ entry ∈ entries, '`' ∉ entry.1.toList ∧ entry.2.Printable)
    : mapLiteral expression (skip (printMap entries ++ rest)) = .ok entries (skip rest) := by
  have solid : Solid (printMap entries) := ⟨'\x7b', _, rfl, by decide⟩
  rw [solid.skip_append]
  exact (expression_inner _).mapLiteral (fun entry member => (printable entry member).1)
    (fun entry member => (printable entry member).2) le_rfl

/-- The labels of a node. -/
def printLabels (labels : List String) : List Char :=
  labels.flatMap fun label => ':' :: printName label

theorem labels_read {labels : List String} (noQuotes : ∀ label ∈ labels, '`' ∉ label.toList)
    (ends : Lacks ':' (skip rest))
    : Parser.many (do mark ':'; padded symbol) (skip (printLabels labels ++ rest))
      = .ok labels (skip rest) := by
  refine @Parser.many_read rest _ _ labels (fun _ => True) _ ?_ ?_ (fun _ _ _ => trivial) trivial ?_
  · intro label member tail _
    rw [List.cons_append, Parser.bind_of_ok (mark_here (by decide)),
      padded_symbol_here (noQuotes label member)]
  · exact fun label _ => ⟨':', by simp, by decide⟩
  · exact (mark_rejects (by rwa [skip_skip])).bind

theorem nodePattern_read {node : NodePattern} (printable : node.Printable)
    : nodePattern (skip (node.print ++ rest)) = .ok node (skip rest) := by
  obtain ⟨name, labels, properties⟩ := node
  have whole : (NodePattern.mk name labels properties).print ++ rest
      = '(' :: (printOption printName name ++ (printLabels labels
          ++ (printOption printMap properties ++ ')' :: rest))) := by
    simp [NodePattern.print, printLabels]
  have named : (padded identifier).optional
      (skip (printOption printName name ++ (printLabels labels
        ++ (printOption printMap properties ++ ')' :: rest))))
      = .ok name
        (skip (printLabels labels ++ (printOption printMap properties ++ ')' :: rest))) := by
    refine optional_printOption
      (fun name found => padded_identifier_here (printable.name name found)) fun _ => ?_
    cases labels with
    | cons => exact ⟨_, rfl⟩
    | nil => cases properties <;> exact ⟨_, rfl⟩
  have noLabel : Lacks ':' (skip (printOption printMap properties ++ ')' :: rest)) := by
    cases properties <;> exact lacks_cons (by decide)
  have mapped : (mapLiteral expression).optional
      (skip (printOption printMap properties ++ ')' :: rest))
        = .ok properties (skip (')' :: rest)) :=
    optional_printOption (fun entries found => mapLiteral_read (printable.properties entries found))
      fun _ => ⟨_, rfl⟩
  refine Parser.within_of_ok ?_ .nodePattern
  rw [whole, Parser.bind_of_ok (mark_here (by decide)), Parser.bind_of_ok named,
    Parser.bind_of_ok (labels_read printable.labels noLabel), Parser.bind_of_ok mapped,
    Parser.bind_of_ok (mark_here (by decide)), Parser.pure_eq]

end Nodes

structure HopRange.Printable (range : HopRange) : Prop where
  least : ∀ count ∈ range.least, count ≤ Number.largestWord32
  most : ∀ count ∈ range.most, count ≤ Number.largestWord32

structure RelationshipPattern.Printable (relationship : RelationshipPattern) : Prop where
  name : ∀ name ∈ relationship.name, '`' ∉ name.toList
  types : ∀ type ∈ relationship.types, '`' ∉ type.toList
  length : ∀ range ∈ relationship.length, range.Printable
  properties : relationship.properties.Printable

section Relationships

variable {rest : List Char}

theorem relationshipTypes_read {types : List String} (noQuotes : ∀ type ∈ types, '`' ∉ type.toList)
    (noType : Lacks ':' (skip rest)) (noMore : Lacks '|' (skip rest))
    : relationshipTypes (skip (printTypes types ++ rest)) = .ok types (skip rest) := by
  cases types with
  | nil =>
      have none : (mark ':').Rejects (skip rest) := mark_rejects (by rwa [skip_skip])
      exact Parser.bind_of_ok (Parser.optional_of_rejects none.bind)
  | cons first others =>
      have one : ∀ type ∈ first :: others, ∀ tail, True →
          ∃ value, type = value ∧ (do let _ ← (mark ':').optional; padded symbol)
            (printName type ++ tail) = .ok value (skip tail) := by
        intro type member tail _
        have noMark : (mark ':').Rejects (printName type ++ tail) := ⟨_, rfl⟩
        refine ⟨type, rfl, ?_⟩
        rw [Parser.bind_of_ok (Parser.optional_of_rejects noMark),
          ← (solid_printName type).skip_append, padded_symbol_here (noQuotes type member)]
      have separates : ∀ type ∈ others, ∀ tail,
          mark '|' ('|' :: ([] ++ printName type) ++ tail) = .ok () (printName type ++ tail) := by
        intro type _ tail
        rw [← (solid_printName type).skip_append]
        exact mark_read (skip_cons (by decide))
      have stops : (mark '|').Rejects (skip rest) := mark_rejects (by rwa [skip_skip])
      obtain ⟨values, same, reads⟩ := Parser.separated1_related one separates (by decide)
        (fun _ => trivial) trivial stops
      rw [List.forall₂_eq_eq_eq] at same
      have whole : printTypes (first :: others) ++ rest
          = ':' :: (printName first
            ++ (others.flatMap (fun type => '|' :: ([] ++ printName type)) ++ rest)) := by
        simp [printTypes]
      have listed : Parser.optional (do
          mark ':'
          Parser.separated1 (mark '|') do
            let _ ← (mark ':').optional
            padded symbol) (skip (printTypes (first :: others) ++ rest))
          = .ok (some (first :: others)) (skip rest) := by
        refine Parser.optional_of_ok ?_
        rw [whole, Parser.bind_of_ok (mark_here (by decide)), (solid_printName first).skip_append,
          ← List.append_assoc, reads, same]
      exact Parser.bind_of_ok listed

theorem hopCount_here {count : Nat} (small : count ≤ Number.largestWord32) (ends : LacksDigit rest)
    : padded hopCount (skip (printNumber count ++ rest)) = .ok count (skip rest) := by
  refine padded_here (@leads_printNumber 9 count).solid ?_
  exact Parser.reading_of_ok (digits_read count ends) (decimalUpTo_printNumber small)

theorem LacksDigit.hopCount (lacks : LacksDigit (skip rest))
    : (padded hopCount).Rejects (skip rest) :=
  padded_rejects ((LacksDigit.digits (by rwa [skip_skip])).reading _)

theorem hopRange_read {range : HopRange} (printable : range.Printable) (ends : LacksDigit rest)
    (noDigit : LacksDigit (skip rest))
    : hopRange (skip (range.print ++ rest)) = .ok range (skip rest) := by
  obtain ⟨least, most⟩ := range
  have whole : (HopRange.mk least most).print ++ rest
      = '*' :: (printOption printNumber least
          ++ ("..".toList ++ (printOption printNumber most ++ rest))) := by
    simp [HopRange.print]
  have lower : (padded hopCount).optional
      (skip (printOption printNumber least
        ++ ("..".toList ++ (printOption printNumber most ++ rest))))
      = .ok least (skip ("..".toList ++ (printOption printNumber most ++ rest))) := by
    refine optional_printOption (fun count found => hopCount_here (printable.least count found) ?_)
      fun _ => ⟨_, rfl⟩
    simp [LacksDigit]
  have upper : (padded hopCount).optional (skip (printOption printNumber most ++ rest))
      = .ok most (skip rest) :=
    optional_printOption (fun count found => hopCount_here (printable.most count found) ends)
      fun _ => noDigit.hopCount
  have bound : Parser.optional (do padded (literally ".."); (padded hopCount).optional)
      (skip ("..".toList ++ (printOption printNumber most ++ rest)))
        = .ok (some most) (skip rest) := by
    refine Parser.optional_of_ok ?_
    exact (Parser.bind_of_ok rfl).trans upper
  rw [whole, hopRange, Parser.bind_of_ok (mark_here (by decide)), Parser.bind_of_ok lower,
    Parser.bind_of_ok bound, Parser.pure_eq]
  rfl

/-- The bracketed part of a relationship is read back. -/
theorem relationshipDetail_read {relationship : RelationshipPattern}
    (printable : relationship.Printable)
    : relationshipDetail (skip (relationship.printDetail ++ rest))
      = .ok
          { name := relationship.name
            types := relationship.types
            length := relationship.length
            properties := relationship.properties }
          (skip rest) := by
  obtain ⟨name, direction, types, properties, length⟩ := relationship
  have whole : (RelationshipPattern.mk name direction types properties length).printDetail ++ rest
      = '[' :: (printOption printName name
        ++ (printTypes types ++ (printOption HopRange.print length
          ++ (printOption printMap properties ++ ']' :: rest)))) := by
    simp [RelationshipPattern.printDetail]
  -- Whatever part comes next starts with a sign that the part before it cannot go on with.
  have named : (padded identifier).optional
      (skip (printOption printName name ++ (printTypes types ++ (printOption HopRange.print length
        ++ (printOption printMap properties ++ ']' :: rest)))))
      = .ok name (skip (printTypes types ++ (printOption HopRange.print length
          ++ (printOption printMap properties ++ ']' :: rest)))) := by
    refine optional_printOption
      (fun name found => padded_identifier_here (printable.name name found)) fun _ => ?_
    cases types with
    | cons => exact ⟨_, rfl⟩
    | nil =>
        cases length with
        | some => exact ⟨_, rfl⟩
        | none => cases properties <;> exact ⟨_, rfl⟩
  have typed : relationshipTypes
      (skip (printTypes types ++ (printOption HopRange.print length
        ++ (printOption printMap properties ++ ']' :: rest))))
      = .ok types (skip (printOption HopRange.print length
          ++ (printOption printMap properties ++ ']' :: rest))) := by
    refine relationshipTypes_read printable.types ?_ ?_
    · cases length <;> cases properties <;> exact lacks_cons (by decide)
    · cases length <;> cases properties <;> exact lacks_cons (by decide)
  have bounded : hopRange.optional
      (skip (printOption HopRange.print length ++ (printOption printMap properties ++ ']' :: rest)))
      = .ok length (skip (printOption printMap properties ++ ']' :: rest)) := by
    refine optional_printOption (fun range found => ?_) fun _ => ?_
    · have lacks : LacksDigit (printOption printMap properties ++ ']' :: rest) := by
        cases properties <;> simp [LacksDigit, printOption, printMap]
      refine hopRange_read (printable.length range found) lacks ?_
      cases properties <;> exact lacks
    · cases properties <;> exact ⟨_, rfl⟩
  have mapped : (mapLiteral expression).optional
      (skip (printOption printMap properties ++ ']' :: rest))
        = .ok properties (skip (']' :: rest)) :=
    optional_printOption (fun entries found => mapLiteral_read (printable.properties entries found))
      fun _ => ⟨_, rfl⟩
  rw [whole, relationshipDetail, Parser.bind_of_ok (mark_here (by decide)), Parser.bind_of_ok named,
    Parser.bind_of_ok typed, Parser.bind_of_ok bounded, Parser.bind_of_ok mapped,
    Parser.bind_of_ok (mark_here (by decide)), Parser.pure_eq]

/-- A relationship is read back before the node that follows it. -/
theorem relationshipPattern_read {relationship : RelationshipPattern}
    (printable : relationship.Printable)
    : relationshipPattern (skip (relationship.print ++ '(' :: rest))
      = .ok relationship ('(' :: rest) := by
  have detail (tail : List Char) :=
    Parser.optional_of_ok (@relationshipDetail_read tail relationship printable)
  obtain ⟨name, direction, types, properties, length⟩ := relationship
  rw [RelationshipPattern.print, List.append_assoc, List.append_assoc]
  cases direction with
  | left =>
      exact (Parser.bind_of_ok rfl).trans ((Parser.bind_of_ok (detail ('-' :: '(' :: rest))).trans
        (Parser.bind_of_ok rfl))
  | right =>
      exact (Parser.bind_of_ok rfl).trans
        ((Parser.bind_of_ok (detail ('-' :: '>' :: '(' :: rest))).trans
        (Parser.bind_of_ok rfl))
  | both =>
      exact (Parser.bind_of_ok rfl).trans ((Parser.bind_of_ok (detail ('-' :: '(' :: rest))).trans
        (Parser.bind_of_ok rfl))

theorem visible_relationship (relationship : RelationshipPattern) : Visible relationship.print := by
  refine ⟨'-', ?_, by decide⟩
  cases direction : relationship.direction <;> simp [RelationshipPattern.print, direction]

end Relationships

structure PathPattern.Printable (path : PathPattern) : Prop where
  name : ∀ name ∈ path.name, '`' ∉ name.toList
  start : path.start.Printable
  hops : ∀ hop ∈ path.hops, hop.1.Printable ∧ hop.2.Printable
  short : path.hops.length ≤ longestChain

section Paths

variable {rest : List Char}

theorem relationshipPattern_rejects (stops : Stops 0 rest)
    : relationshipPattern.Rejects (skip rest) := by
  have noArrow : Lacks '<' (skip (skip rest)) := by
    rw [skip_skip]
    exact stops.marks ('<', 4) (by decide) (by decide)
  have noLine : Lacks '-' (skip (skip rest)) := by
    rw [skip_skip]
    exact stops.marks ('-', 5) (by decide) (by decide)
  refine Parser.Rejects.bind (padded_rejects (Parser.rejects_choice.mpr ?_))
  simp only [List.forall_mem_cons, List.not_mem_nil, false_imp_iff, implies_true, and_true]
  exact ⟨(literally_rejects rfl noArrow).bind, (literally_rejects rfl noLine).bind⟩

/-- A path is read back where no further relationship follows. -/
theorem pathPattern_read {path : PathPattern} (printable : path.Printable) (stops : Stops 0 rest)
    : pathPattern (skip (path.print ++ rest)) = .ok path (skip rest) := by
  obtain ⟨name, start, hops⟩ := path
  have whole : (PathPattern.mk name start hops).print ++ rest
      = printOption (fun name => printName name ++ [' ', '=', ' ']) name
        ++ (start.print ++ (hops.flatMap (fun hop => hop.1.print ++ hop.2.print) ++ rest)) := by
    simp [PathPattern.print]
  have named : Parser.optional (do
      let name ← padded identifier
      mark '='
      pure name)
      (skip (printOption (fun name => printName name ++ [' ', '=', ' ']) name
        ++ (start.print ++ (hops.flatMap (fun hop => hop.1.print ++ hop.2.print) ++ rest))))
      = .ok name
        (skip (start.print ++ (hops.flatMap (fun hop => hop.1.print ++ hop.2.print) ++ rest))) := by
    refine optional_printOption (fun name found => ?_) fun _ => ⟨_, rfl⟩
    rw [List.append_assoc, Parser.bind_of_ok (padded_identifier_here (printable.name name found))]
    rfl
  have each : ∀ hop ∈ hops, ∀ tail, True →
      (do
        let relationship ← relationshipPattern
        let node ← nodePattern
        pure (relationship, node)) (skip (hop.1.print ++ hop.2.print ++ tail))
          = .ok hop (skip tail) := by
    intro hop member tail _
    have read :=
      @relationshipPattern_read (hop.2.print.tail ++ tail) _ (printable.hops hop member).1
    have opens : '(' :: (hop.2.print.tail ++ tail) = skip (hop.2.print ++ tail) := rfl
    rw [opens] at read
    rw [List.append_assoc]
    exact (Parser.bind_of_ok read).trans
      (Parser.bind_of_ok (nodePattern_read (printable.hops hop member).2))
  have chain : Parser.many (do
      let relationship ← relationshipPattern
      let node ← nodePattern
      pure (relationship, node))
        (skip (hops.flatMap (fun hop => hop.1.print ++ hop.2.print) ++ rest))
      = .ok hops (skip rest) := by
    refine Parser.many_read each (fun hop _ => ?_) (fun _ _ _ => trivial) trivial
      (relationshipPattern_rejects stops).bind
    obtain ⟨c, member, noSpace⟩ := visible_relationship hop.1
    exact ⟨c, List.mem_append_left _ member, noSpace⟩
  rw [whole, pathPattern, Parser.bind_of_ok named,
    Parser.bind_of_ok (nodePattern_read printable.start)]
  refine (Parser.bind_of_ok chain).trans ?_
  exact if_neg (Nat.not_lt.mpr printable.short)

end Paths

end CypherSql.Cypher
