import CypherSql.Proofs.Printing.Printable

/-! Expressions without operators are read back from their canonical texts. What stands in brackets
is shorter than the expression around it, so that the parser of whole expressions may be assumed to
read it.
-/

namespace CypherSql.Cypher

open Text

section Lists

variable {α ι : Type} {p : Parser α} {text : ι → List Char} {items : List ι}
  {related : ι → α → Prop}
  {follows : List Char → Prop} {rest : List Char}

/-- Texts with commas between them are read one after the other. -/
theorem separated1_printList (nonempty : items ≠ [])
    (each
      : ∀ item ∈ items,
          ∀ tail,
            follows tail
            → ∃ value, related item value ∧ p (text item ++ tail) = .ok value (skip tail))
    (solid : ∀ item ∈ items, Solid (text item)) (comma : ∀ tail, follows (',' :: tail))
    (last : follows rest) (ends : Lacks ',' (skip rest))
    : ∃ values,
        List.Forall₂ related items values
        ∧ Parser.separated1 (mark ',') p (printList (items.map text) ++ rest)
          = .ok values (skip rest) := by
  obtain ⟨first, others, rfl⟩ := List.exists_cons_of_ne_nil nonempty
  have separates : ∀ item ∈ others, ∀ tail,
      mark ',' (',' :: ([' '] ++ text item) ++ tail) = .ok () (text item ++ tail) := by
    intro item member tail
    have read : mark ',' (',' :: ([' '] ++ text item) ++ tail)
        = .ok () (skip ([' '] ++ text item ++ tail)) :=
      mark_read (skip_cons (by decide))
    rw [read, List.append_assoc, List.singleton_append, skip_space,
      (solid item (by simp [member])).skip_append]
  have stops : (mark ',').Rejects (skip rest) := mark_rejects (by rwa [skip_skip])
  obtain ⟨values, areRelated, reads⟩ :=
    Parser.separated1_related each separates (by decide) comma last stops
  refine ⟨values, areRelated, ?_⟩
  rw [← reads, List.map_cons, printList, List.flatMap_map]
  rfl

/-- The brackets that close a list. -/
def closingMarks : List Char :=
  [')', ']', '\x7d']

theorem closingMarks_apart (c : Char) (closes : c ∈ closingMarks)
    : isSpace c = false ∧ c ≠ ',' ∧ c ∈ [')', ']', '\x7d', ','] := by
  simp only [closingMarks, List.mem_cons, List.not_mem_nil, or_false] at closes
  rcases closes with rfl | rfl | rfl <;> decide

/-- Texts with commas between them are read up to a closing bracket. -/
theorem separated_printList {p : Parser ι} {c : Char} (closes : c ∈ closingMarks)
    (each : ∀ item ∈ items, ∀ tail, Stops 0 tail → p (text item ++ tail) = .ok item (skip tail))
    (solid : ∀ item ∈ items, Solid (text item)) (rejects : p.Rejects (c :: rest))
    : Parser.separated (mark ',') p (printList (items.map text) ++ c :: rest)
      = .ok items (c :: rest) := by
  obtain ⟨noSpace, noComma, stops⟩ := closingMarks_apart c closes
  by_cases empty : items = []
  · subst empty
    have none : (Parser.separated1 (mark ',') p).Rejects (c :: rest) := rejects.bind
    exact Parser.bind_of_ok (Parser.optional_of_rejects none)
  · have one : ∀ item ∈ items, ∀ tail, Stops 0 tail →
        ∃ value, item = value ∧ p (text item ++ tail) = .ok value (skip tail) :=
      fun item member tail ends => ⟨item, rfl, each item member tail ends⟩
    have ends : Lacks ',' (skip (c :: rest)) := by
      rw [skip_cons noSpace]
      exact lacks_cons noComma
    obtain ⟨values, same, reads⟩ := separated1_printList empty one solid
      (fun tail => stops_mark (by simp)) (stops_mark stops) ends
    rw [List.forall₂_eq_eq_eq] at same
    rw [skip_cons noSpace, ← same] at reads
    exact Parser.bind_of_ok (Parser.optional_of_ok reads)

theorem skip_printList {texts : List (List Char)} {c : Char} (closes : c ∈ closingMarks)
    (solid : ∀ text ∈ texts, Solid text)
    : skip (printList texts ++ c :: rest) = printList texts ++ c :: rest := by
  cases texts with
  | nil => exact skip_cons (closingMarks_apart c closes).1
  | cons first others =>
      rw [printList, List.append_assoc, (solid first (by simp)).skip_append]

end Lists

/-- A parser of whole expressions reads the texts of those that are shorter than a bound. -/
structure Inner (expr : Parser Expr) (size : Nat) : Prop where
  reads
    : ∀ e : Expr,
        e.Printable
        → e.print.length < size → ∀ rest, Stops 0 rest → expr (e.print ++ rest) = .ok e (skip rest)
  rejects : ∀ c ∈ [')', ']'], ∀ tail, expr.Rejects (c :: tail)

theorem printEach_eq (items : List Expr) : printEach items = items.map Expr.print := by
  induction items with
  | nil => rfl
  | cons item items ih => rw [printEach, ih, List.map_cons]

/-- The text of an entry of a map. -/
def printEntry (entry : String × Expr) : List Char :=
  printName entry.1 ++ ':' :: entry.2.print

theorem printEntries_eq (entries : List (String × Expr))
    : printEntries entries = entries.map printEntry := by
  induction entries with
  | nil => rfl
  | cons entry entries ih => rw [printEntries, ih, List.map_cons, printEntry]

theorem length_le_printList {texts : List (List Char)} {text : List Char} (member : text ∈ texts)
    : text.length ≤ (printList texts).length := by
  cases texts with
  | nil => cases member
  | cons first others =>
      rw [printList, List.length_append]
      rcases List.mem_cons.mp member with rfl | later
      · omega
      · obtain ⟨before, after, rfl⟩ := List.append_of_mem later
        simp only [List.flatMap_append, List.flatMap_cons, List.length_append, List.length_cons]
        omega

section Brackets

variable {expr : Parser Expr} {size : Nat} {rest : List Char}

/-- Expressions between brackets are read one after the other. -/
theorem Inner.separated (inner : Inner expr size) {items : List Expr}
    (each : ∀ item ∈ items, item.Printable)
    (small : (printList (printEach items)).length < size) {c : Char} (closes : c ∈ [')', ']'])
    : Parser.separated (mark ',') expr (printList (printEach items) ++ c :: rest)
      = .ok items (c :: rest) := by
  rw [printEach_eq] at small ⊢
  refine separated_printList ?_ ?_ (fun item member => (each item member).leads.solid)
    (inner.rejects c closes rest)
  · exact List.mem_append_left ['\x7d'] closes
  · intro item member tail ends
    have short := length_le_printList (List.mem_map_of_mem (f := Expr.print) member)
    exact inner.reads item (each item member) (by omega) tail ends

theorem Inner.mapEntry (inner : Inner expr size) {entry : String × Expr}
    (noQuote : '`' ∉ entry.1.toList) (printable : entry.2.Printable)
    (small : (printEntry entry).length ≤ size) (stops : Stops 0 rest)
    : mapEntry expr (printEntry entry ++ rest) = .ok entry (skip rest) := by
  have key
      : padded symbol (printEntry entry ++ rest)
        = .ok entry.1 (':' :: (entry.2.print ++ rest)) := by
    rw [printEntry, List.append_assoc, padded_read (solid_printName _) (symbol_read noQuote _)]
    exact congrArg _ (skip_cons (by decide))
  have short : entry.2.print.length < size := by
    rw [printEntry, List.length_append, List.length_cons] at small
    omega
  rw [Cypher.mapEntry, Parser.bind_of_ok key, Parser.bind_of_ok (char_read _ _),
    Parser.bind_of_ok (inner.reads _ printable short _ stops), Parser.pure_eq]

/-- A map is read entry after entry. -/
theorem Inner.mapLiteral (inner : Inner expr size) {entries : List (String × Expr)}
    (keys : ∀ entry ∈ entries, '`' ∉ entry.1.toList) (each : ∀ entry ∈ entries, entry.2.Printable)
    (small : (printMap entries).length ≤ size)
    : mapLiteral expr (printMap entries ++ rest) = .ok entries (skip rest) := by
  have solid : ∀ entry ∈ entries, Solid (printEntry entry) :=
    fun entry _ => ⟨'`', _, rfl, by decide⟩
  have opens : mark '\x7b' (printMap entries ++ rest)
      = .ok () (printList (entries.map printEntry) ++ '\x7d' :: rest) := by
    rw [← skip_printList (by decide) (List.forall_mem_map.mpr solid)]
    refine mark_read ?_
    rw [printMap, printEntries_eq, List.append_assoc]
    exact skip_cons (by decide)
  have one : ∀ entry ∈ entries, ∀ tail, Stops 0 tail →
      Cypher.mapEntry expr (printEntry entry ++ tail) = .ok entry (skip tail) := by
    intro entry member tail ends
    have short := length_le_printList (List.mem_map_of_mem (f := printEntry) member)
    rw [printMap, printEntries_eq] at small
    simp only [List.length_append, List.length_cons] at small
    exact inner.mapEntry (keys entry member) (each entry member) (by omega) ends
  have inside : Parser.separated (mark ',') (Cypher.mapEntry expr)
      (printList (entries.map printEntry) ++ '\x7d' :: rest) = .ok entries ('\x7d' :: rest) :=
    separated_printList (by decide) one solid ⟨_, rfl⟩
  rw [Cypher.mapLiteral, Parser.bind_of_ok opens, Parser.bind_of_ok inside,
    Parser.bind_of_ok (mark_read (skip_cons (by decide))), Parser.pure_eq]

end Brackets

section Atoms

variable {expr : Parser Expr} {text : List Char} {e : Expr}

theorem readsAtom_of_atom (solid : Solid text)
    (read : ∀ rest, Follows rest → ∃ after,
      atom expr (text ++ rest) = .ok e after ∧ skip after = skip rest)
    : ReadsAtom expr text e := by
  intro rest follows
  obtain ⟨after, read, same⟩ := read rest follows
  rw [← same]
  exact padded_of_ok (by rw [solid.skip_append, read])

/-- A number is no number with a point, even where a key is looked up in it. -/
theorem realLiteral_rejects {rest : List Char} (value : Nat) (follows : Follows rest)
    : realLiteral.Rejects (printNumber value ++ rest) := by
  refine Parser.Rejects.bind_of_ok (digits_read value follows.word.lacksDigit) ?_
  cases follows with
  | stop stops => exact (char_rejects (stops.lacks_point.of_skip (by decide))).bind
  | key noQuote later =>
      refine Parser.Rejects.bind_of_ok (char_read _ _) (Parser.Rejects.bind (LacksDigit.digits ?_))
      rw [printName_append]
      simp [LacksDigit]

theorem readsAtom_number {value : Nat} (small : value ≤ Number.largestSigned64)
    : ReadsAtom expr (printNumber value) (.literal (.integer value)) := by
  refine readsAtom_of_atom (@leads_printNumber 9 value).solid fun rest follows => ⟨rest, ?_, rfl⟩
  refine Parser.choice_eq_ok.mpr (.here (Parser.bind_of_ok (Parser.choice_eq_ok.mpr ?_)))
  refine .there (realLiteral_rejects value follows) (.here (Parser.bind_of_ok ?_))
  exact Parser.reading_of_ok (digits_read value follows.word.lacksDigit)
    (decimalUpTo_printNumber small)

/-- A word that is a literal is read, with the blanks after it. -/
theorem keywordAs_read {α : Type} {word : String} {rest : List Char} (isWord : IsWord word)
    (ends : WordEnds rest) (value : α)
    : keywordAs word value (word.toList ++ rest) = .ok value (skip rest) :=
  Parser.bind_of_ok (keyword_read isWord (isWord.solid.skip_append rest) ends)

theorem readsAtom_boolean (value : Bool)
    : ReadsAtom expr (printLiteral (.boolean value)) (.literal (.boolean value)) := by
  refine readsAtom_of_atom (leads_literal (.boolean value)).solid
    fun rest follows => ⟨skip rest, Parser.choice_eq_ok.mpr (.here ?_), skip_skip rest⟩
  refine Parser.bind_of_ok (Parser.choice_eq_ok.mpr ?_)
  cases value with
  | true =>
      exact .there ⟨_, rfl⟩ (.there ⟨_, rfl⟩ (.there ⟨_, rfl⟩
        (.here (keywordAs_read (by decide) follows.word _))))
  | false =>
      exact .there ⟨_, rfl⟩ (.there ⟨_, rfl⟩ (.there ⟨_, rfl⟩ (.there ⟨_, rfl⟩
        (.here (keywordAs_read (by decide) follows.word _)))))

theorem readsAtom_null : ReadsAtom expr (printLiteral .null) (.literal .null) := by
  refine readsAtom_of_atom (leads_literal .null).solid
    fun rest follows => ⟨skip rest, Parser.choice_eq_ok.mpr (.here ?_), skip_skip rest⟩
  refine Parser.bind_of_ok (Parser.choice_eq_ok.mpr ?_)
  exact .there ⟨_, rfl⟩ (.there ⟨_, rfl⟩ (.there ⟨_, rfl⟩ (.there ⟨_, rfl⟩ (.there ⟨_, rfl⟩
    (.here (keywordAs_read (by decide) follows.word _))))))

theorem readsAtom_text {raw : String} (inside : QuotedBody (quoteFor raw.toList) raw.toList)
    : ReadsAtom expr (printLiteral (.text raw)) (.literal (.text raw)) := by
  refine readsAtom_of_atom (leads_literal (.text inside)).solid
    fun rest follows => ⟨rest, Parser.choice_eq_ok.mpr (.here ?_), rfl⟩
  have whole : printLiteral (.text raw) ++ rest
      = quoteFor raw.toList :: (raw.toList ++ quoteFor raw.toList :: rest) := by
    simp [printLiteral_text]
  have quotes : quoteFor raw.toList = '\'' ∨ quoteFor raw.toList = '"' := by
    unfold quoteFor
    split <;> simp
  rw [whole]
  refine Parser.bind_of_ok (Parser.choice_eq_ok.mpr ?_)
  rcases quotes with single | double
  · rw [single] at inside ⊢
    have read := quotedText_read inside (by decide) rest
    rw [String.ofList_toList] at read
    refine .there ⟨_, rfl⟩ (.there ⟨_, rfl⟩ (.here (Parser.bind_of_ok ?_)))
    exact Parser.choice_eq_ok.mpr (.here read)
  · rw [double] at inside ⊢
    have read := quotedText_read inside (by decide) rest
    rw [String.ofList_toList] at read
    refine .there ⟨_, rfl⟩ (.there ⟨_, rfl⟩ (.here (Parser.bind_of_ok ?_)))
    exact Parser.choice_eq_ok.mpr (.there ⟨_, rfl⟩ (.here read))

theorem readsAtom_parameter {name : String} (nonempty : name.toList ≠ [])
    (isWord : ∀ c ∈ name.toList, isWordChar c)
    : ReadsAtom expr ('$' :: name.toList) (.parameter name) := by
  refine readsAtom_of_atom ⟨'$', _, rfl, by decide⟩ fun rest follows => ⟨rest, ?_, rfl⟩
  refine Parser.choice_eq_ok.mpr (.there ⟨_, rfl⟩ (.here ?_))
  rw [List.cons_append, parameter, Parser.bind_of_ok (char_read _ _),
    Parser.bind_of_ok (run1_read nonempty isWord follows.word), Parser.pure_eq,
    String.ofList_toList]

theorem consumed_of_ok {α : Type} {p : Parser α} {source rest : List Char} {value : α}
    (read : p source = .ok value rest)
    : p.consumed source = .ok (source.take (source.length - rest.length)) rest := by
  rw [Parser.consumed, read]

/-- The keys after a name are read as if they were parts of a function name, by induction over them.
-/
theorem Follows.names {rest : List Char} (follows : Follows rest) (seen : List (List Char))
    : ∃ names last,
        Stops 9 last
        ∧ Parser.manyAfter (do char '.'; symbolicName) seen rest = .ok names last := by
  have steps : ∃ names last,
      Stops 9 last
      ∧ Parser.Steps (Parser.manyStep (do char '.'; symbolicName)) seen rest names last := by
    induction follows generalizing seen with
    | stop stops => exact ⟨seen, _, stops, .done⟩
    | @key name tail noQuote later ih =>
        obtain ⟨names, last, stops, steps⟩ := ih (name.toList :: seen)
        have read
            : (do char '.'; symbolicName) ('.' :: (printName name ++ tail))
              = .ok name.toList tail := by
          rw [Parser.bind_of_ok (char_read _ _), symbolicName_printed noQuote]
        have shorter : tail.length < ('.' :: (printName name ++ tail)).length := by
          simp only [List.length_cons, List.length_append]
          omega
        exact ⟨names, last, stops,
          .more (Parser.bind_of_ok (Parser.optional_of_ok read)) shorter steps⟩
  obtain ⟨names, last, stops, steps⟩ := steps
  have noKey : (char '.').Rejects last := char_rejects (stops.lacks_point.of_skip (by decide))
  exact ⟨names, last, stops, steps.manyAfter noKey.bind⟩

/-- A variable is no function that is called. -/
theorem functionCall_rejects {name : String} {rest : List Char} (noQuote : '`' ∉ name.toList)
    (follows : Follows rest)
    : (functionCall expr).Rejects (printName name ++ rest) := by
  obtain ⟨names, last, stops, more⟩ := follows.names []
  have whole : (do
      let _ ← symbolicName
      Parser.many do
        char '.'
        symbolicName) (printName name ++ rest) = .ok names.reverse last := by
    rw [Parser.bind_of_ok (symbolicName_printed noQuote rest), Parser.many, Parser.bind_of_ok more,
      Parser.pure_eq]
  have noCall : (mark '(').Rejects last :=
    mark_rejects (stops.marks ('(', 9) (by decide) le_rfl)
  have called :=
    Parser.bind_of_ok (f := fun name => pure (String.ofList name)) (consumed_of_ok whole)
  exact Parser.Rejects.bind_of_ok called noCall.bind

theorem readsAtom_var {name : String} (noQuote : '`' ∉ name.toList)
    : ReadsAtom expr (printName name) (.var name) := by
  refine readsAtom_of_atom ⟨'`', _, rfl, by decide⟩ fun rest follows => ⟨rest, ?_, rfl⟩
  refine Parser.choice_eq_ok.mpr (.there ⟨_, rfl⟩ (.there ⟨_, rfl⟩
    (.there (functionCall_rejects noQuote follows) (.there ⟨_, rfl⟩ (.there ⟨_, rfl⟩
      (.there ⟨_, rfl⟩ (.here ?_)))))))
  exact Parser.bind_of_ok (identifier_read noQuote rest)

section Enclosing

variable {size : Nat}

theorem Inner.readsAtom_list (inner : Inner expr size) {items : List Expr}
    (each : ∀ item ∈ items, item.Printable) (small : (Expr.list items).print.length ≤ size)
    : ReadsAtom expr (Expr.list items).print (.list items) := by
  refine readsAtom_of_atom ⟨'[', _, rfl, by decide⟩ fun rest follows =>
    ⟨skip rest, ?_, skip_skip rest⟩
  have whole
      : (Expr.list items).print ++ rest = '[' :: (printList (printEach items) ++ ']' :: rest) := by
    simp [Expr.print]
  have solid : ∀ text ∈ printEach items, Solid text := by
    rw [printEach_eq]
    exact List.forall_mem_map.mpr fun item member => (each item member).leads.solid
  have opens : mark '[' ('[' :: (printList (printEach items) ++ ']' :: rest))
      = .ok () (printList (printEach items) ++ ']' :: rest) := by
    rw [mark_read (skip_cons (by decide)), skip_printList (by decide) solid]
  have short : (printList (printEach items)).length < size := by
    simp only [Expr.print, List.length_append, List.length_cons] at small
    omega
  rw [whole]
  refine Parser.choice_eq_ok.mpr (.there ⟨_, rfl⟩ (.there ⟨_, rfl⟩ (.there ⟨_, rfl⟩ (.here ?_))))
  rw [listLiteral, Parser.bind_of_ok opens,
    Parser.bind_of_ok (inner.separated each short (by simp)),
    Parser.bind_of_ok (mark_read (skip_cons (by decide))), Parser.pure_eq]

theorem Inner.readsAtom_map (inner : Inner expr size) {entries : List (String × Expr)}
    (keys : ∀ entry ∈ entries, '`' ∉ entry.1.toList) (each : ∀ entry ∈ entries, entry.2.Printable)
    (small : (Expr.map entries).print.length ≤ size)
    : ReadsAtom expr (Expr.map entries).print (.map entries) := by
  refine readsAtom_of_atom ⟨'\x7b', _, rfl, by decide⟩ fun rest follows =>
    ⟨skip rest, ?_, skip_skip rest⟩
  have same : (Expr.map entries).print = printMap entries := by rw [Expr.print, printMap]
  refine Parser.choice_eq_ok.mpr (.there ⟨_, rfl⟩ (.there ⟨_, rfl⟩ (.there ⟨_, rfl⟩ (.there ⟨_, rfl⟩
    (.here ?_)))))
  rw [same] at small ⊢
  exact Parser.bind_of_ok (inner.mapLiteral keys each small)

/-- An expression in parentheses is read as one without operators. -/
theorem Inner.readsAtom_parenthesized (inner : Inner expr size) (printable : e.Printable)
    (small : e.print.length < size)
    : ReadsAtom expr ('(' :: e.print ++ [')']) e := by
  refine readsAtom_of_atom ⟨'(', _, rfl, by decide⟩ fun rest follows =>
    ⟨skip rest, ?_, skip_skip rest⟩
  have whole : '(' :: e.print ++ [')'] ++ rest = '(' :: (e.print ++ ')' :: rest) := by simp
  have opens : mark '(' ('(' :: (e.print ++ ')' :: rest)) = .ok () (e.print ++ ')' :: rest) := by
    rw [mark_read (skip_cons (by decide)), printable.leads.solid.skip_append]
  have inside : expr (e.print ++ ')' :: rest) = .ok e (')' :: rest) := by
    rw [inner.reads e printable small _ (stops_mark (by simp)), skip_cons (by decide)]
  rw [whole]
  refine Parser.choice_eq_ok.mpr (.there ⟨_, rfl⟩ (.there ⟨_, rfl⟩ (.there ⟨_, rfl⟩ (.there ⟨_, rfl⟩
    (.there ⟨_, rfl⟩ (.here ?_))))))
  rw [parenthesized, Parser.bind_of_ok opens, Parser.bind_of_ok inside,
    Parser.bind_of_ok (mark_read (skip_cons (by decide))), Parser.pure_eq]

theorem FunctionName.read {first : List Char} {others : List (List Char)}
    (named : FunctionName first others) (tail : List Char)
    : functionName (dotted first others ++ '(' :: tail)
      = .ok (String.ofList (dotted first others)) ('(' :: tail) := by
  have each : ∀ segment ∈ others, ∀ rest, WordEnds rest ∧ skip rest = rest →
      ∃ value, True ∧ (do char '.'; symbolicName) (skip ('.' :: segment ++ rest))
        = .ok value (skip rest) := by
    intro segment member rest ends
    obtain ⟨name, read⟩ := (named.segments segment (by simp [member])).read ends.1
    refine ⟨name, trivial, ?_⟩
    rw [List.cons_append, skip_cons (by decide), Parser.bind_of_ok (char_read _ _), read, ends.2]
  have follow : WordEnds ((others.flatMap fun segment => '.' :: segment) ++ '(' :: tail) := by
    cases others with
    | nil => exact wordEnds_cons (by decide)
    | cons => exact wordEnds_cons (by decide)
  obtain ⟨name, opens⟩ := (named.segments first (by simp)).read follow
  obtain ⟨names, -, more⟩ := @Parser.manyAfter_related _ _ ('(' :: tail) _ _ others _ _ [] each
    (fun segment _ => ⟨'.', by simp, by decide⟩)
    (fun segment _ tail => ⟨wordEnds_cons (by decide), skip_cons (by decide)⟩)
    ⟨wordEnds_cons (by decide), skip_cons (by decide)⟩ ⟨_, rfl⟩
  have here : skip ((others.flatMap fun segment => '.' :: segment) ++ '(' :: tail)
      = (others.flatMap fun segment => '.' :: segment) ++ '(' :: tail := by
    cases others with
    | nil => exact skip_cons (by decide)
    | cons => exact skip_cons (by decide)
  rw [here, skip_cons (by decide)] at more
  have whole : (do
      let _ ← symbolicName
      Parser.many do
        char '.'
        symbolicName) (dotted first others ++ '(' :: tail)
      = .ok (names.reverse ++ []).reverse ('(' :: tail) := by
    rw [dotted, List.append_assoc, Parser.bind_of_ok opens, Parser.many, Parser.bind_of_ok more,
      Parser.pure_eq]
  rw [functionName, Parser.bind_of_ok (consumed_of_ok whole), Parser.pure_eq]
  simp

/-- A word is no digit. -/
theorem not_isDigit_of_isWordStart {c : Char} (starts : isWordStart c) : c.isDigit = false := by
  refine Bool.eq_false_iff.mpr fun digit => ?_
  simp only [isWordStart, isLetter, toNat_lt_of_isDigit digit, if_true, Bool.or_eq_true, beq_iff_eq]
    at starts
  rcases starts with alpha | rfl
  · rw [not_isDigit_of_isAlpha alpha] at digit
    cases digit
  · cases digit

theorem FunctionName.lacks {first : List Char} {others : List (List Char)} {c : Char}
    (named : FunctionName first others) (noWord : isWordStart c = false) (noQuote : c ≠ '`')
    (tail : List Char)
    : Lacks c (dotted first others ++ tail) := by
  have segment : Segment first := named.segments first (by simp)
  cases segment with
  | quoted => exact lacks_cons noQuote.symm
  | bare starts isWord =>
      refine lacks_cons ?_
      rintro rfl
      rw [noWord] at starts
      cases starts

/-- The name of a function that is called is no literal. -/
theorem FunctionName.literal_rejects {first : List Char} {others : List (List Char)}
    (named : FunctionName first others) (tail : List Char)
    : literal.Rejects (dotted first others ++ '(' :: tail) := by
  have segment : Segment first := named.segments first (by simp)
  cases segment with
  | quoted => exact ⟨_, rfl⟩
  | bare starts isWord =>
      rename_i c letters
      have follow : WordEnds ((others.flatMap fun segment => '.' :: segment) ++ '(' :: tail) := by
        cases others with
        | nil => exact wordEnds_cons (by decide)
        | cons => exact wordEnds_cons (by decide)
      have all : ∀ d ∈ c :: letters, isWordChar d := by
        rw [List.forall_mem_cons]
        exact ⟨isWordChar_of_isWordStart starts, isWord⟩
      have here : skip (dotted (c :: letters) others ++ '(' :: tail)
          = c :: letters ++ ((others.flatMap fun segment => '.' :: segment) ++ '(' :: tail) := by
        rw [dotted, List.append_assoc]
        exact skip_cons (isSpace_of_isWordChar (all c (by simp)))
      have noDigit : digits.Rejects (dotted (c :: letters) others ++ '(' :: tail) := by
        refine LacksDigit.digits ?_
        simpa [LacksDigit, dotted] using not_isDigit_of_isWordStart starts
      have noQuote (quote : Char) (apart : isWordStart quote = false) (other : quote ≠ '`')
          : (quotedText quote).Rejects (dotted (c :: letters) others ++ '(' :: tail) :=
        (char_rejects (named.lacks apart other _)).bind
      have noWord (word : String) (plain : IsPlainWord word) (value : Literal)
          (listed : word ∈ ["TRUE", "FALSE", "NULL"])
          : (keywordAs word value).Rejects (dotted (c :: letters) others ++ '(' :: tail) :=
        (keyword_rejects_word plain here all follow (named.literals word listed)).bind
      have noText : stringLiteral.Rejects (dotted (c :: letters) others ++ '(' :: tail) :=
        Parser.rejects_choice.mpr (by
          simpa using ⟨noQuote '\'' (by decide) (by decide), noQuote '"' (by decide) (by decide)⟩)
      refine Parser.Rejects.bind (Parser.rejects_choice.mpr ?_)
      simp only [List.forall_mem_cons, List.not_mem_nil, false_imp_iff, implies_true, and_true]
      exact ⟨noDigit.bind, (noDigit.reading _).bind, noText.bind, noWord _ (by decide) _ (by simp),
        noWord _ (by decide) _ (by simp), noWord _ (by decide) _ (by simp)⟩

/-- A `DISTINCT` is read where it stands. -/
theorem distinct_read {text : List Char} (distinct : Bool) (here : skip text = text)
    (absent : distinct = false → (keyword "DISTINCT").Rejects text)
    : ∃ found,
        found.isSome = distinct
        ∧ (keyword "DISTINCT").optional
              ((if distinct then "DISTINCT".toList ++ [' '] else []) ++ text)
          = .ok found text := by
  cases distinct with
  | false => exact ⟨none, rfl, Parser.optional_of_rejects (absent rfl)⟩
  | true =>
      have read
          : keyword "DISTINCT" ("DISTINCT".toList ++ ' ' :: text) = .ok () (skip (' ' :: text)) :=
        keyword_read (by decide) rfl (wordEnds_cons (by decide))
      rw [skip_space, here] at read
      exact ⟨some (), rfl, by simpa using Parser.optional_of_ok read⟩

/-- The arguments of a call as they are read. -/
def arguments (expr : Parser Expr) : Parser (List Expr) :=
  Parser.choice [
    do
      mark '*'
      pure [.star],
    Parser.separated (mark ',') expr]

/-- A call is read if its arguments are. -/
theorem FunctionName.readsAtom {name : String} {first : List Char} {others : List (List Char)}
    {args : List Expr} (named : FunctionName first others)
    (whole : name.toList = dotted first others)
    (distinct : Bool)
    (here
      : ∀ tail, skip (printList (printEach args) ++ ')' :: tail) = printList
        (printEach args) ++ ')' :: tail)
    (absent
      : distinct = false
        → ∀ tail, (keyword "DISTINCT").Rejects (printList (printEach args) ++ ')' :: tail))
    (inside
      : ∀ tail, arguments expr (printList (printEach args) ++ ')' :: tail) = .ok args (')' :: tail))
    : ReadsAtom expr (Expr.call name distinct args).print (.call name distinct args) := by
  have leads : Leads 9 (Expr.call name distinct args).print := by
    rw [print_call, whole]
    exact named.leads
  refine readsAtom_of_atom leads.solid fun rest follows => ⟨skip rest, ?_, skip_skip rest⟩
  obtain ⟨found, same, optional⟩ := distinct_read distinct (here rest) fun none => absent none rest
  have opens : mark '(' ('(' :: ((if distinct then "DISTINCT".toList ++ [' '] else [])
        ++ (printList (printEach args) ++ ')' :: rest)))
      = .ok () ((if distinct then "DISTINCT".toList ++ [' '] else [])
          ++ (printList (printEach args) ++ ')' :: rest)) := by
    rw [mark_read (skip_cons (by decide))]
    cases distinct with
    | false => exact congrArg _ (here rest)
    | true => rfl
  have text : (Expr.call name distinct args).print ++ rest
      = dotted first others ++ '(' :: ((if distinct then "DISTINCT".toList ++ [' '] else [])
          ++ (printList (printEach args) ++ ')' :: rest)) := by
    rw [print_call, whole]
    simp only [List.append_assoc, List.cons_append, List.nil_append]
  have called : String.ofList (dotted first others) = name := by
    rw [← whole, String.ofList_toList]
  rw [text]
  refine Parser.choice_eq_ok.mpr (.there (named.literal_rejects _) (.there ?_ (.here ?_)))
  · exact (char_rejects (named.lacks (by decide) (by decide) _)).bind
  · have read := Parser.bind_of_ok (f := fun args => do
        mark ')'
        pure (Expr.call name found.isSome args)) (inside rest)
    rw [functionCall, Parser.bind_of_ok (named.read _), Parser.bind_of_ok opens,
      Parser.bind_of_ok optional, called]
    refine read.trans ?_
    rw [Parser.bind_of_ok (mark_read (skip_cons (by decide))), Parser.pure_eq, same]

theorem FunctionName.readsAtom_all {name : String} {first : List Char} {others : List (List Char)}
    (named : FunctionName first others) (whole : name.toList = dotted first others)
    (distinct : Bool)
    : ReadsAtom expr (Expr.call name distinct [.star]).print (.call name distinct [.star]) :=
  named.readsAtom whole distinct (fun _ => rfl) (fun _ _ => ⟨_, rfl⟩)
    fun _ => Parser.choice_eq_ok.mpr (.here rfl)

theorem Inner.readsAtom_call (inner : Inner expr size) {name : String} {first : List Char}
    {others : List (List Char)} {args : List Expr} (named : FunctionName first others)
    (whole : name.toList = dotted first others) (distinct : Bool)
    (each : ∀ arg ∈ args, arg.Printable)
    (plain : (Expr.call name distinct args).seemsDistinct = false)
    (small : (Expr.call name distinct args).print.length ≤ size)
    : ReadsAtom expr (Expr.call name distinct args).print (.call name distinct args) := by
  have solid : ∀ text ∈ printEach args, Solid text := by
    rw [printEach_eq]
    exact List.forall_mem_map.mpr fun arg member => (each arg member).leads.solid
  have short : (printList (printEach args)).length < size := by
    rw [print_call] at small
    simp only [List.length_append, List.length_cons] at small
    omega
  have here (tail : List Char) : skip (printList (printEach args) ++ ')' :: tail)
      = printList (printEach args) ++ ')' :: tail :=
    skip_printList (by decide) solid
  refine named.readsAtom whole distinct here (fun none tail => ?_) fun tail => ?_
  · subst none
    cases args with
    | nil => exact ⟨_, rfl⟩
    | cons arg args =>
        exact (each arg (by simp)).leads.printList.distinct plain _ (wordEnds_cons (by decide))
  · refine Parser.choice_eq_ok.mpr (.there ?_ (.here (inner.separated each short (by simp))))
    refine (mark_rejects ?_).bind
    rw [here]
    cases args with
    | nil => exact lacks_cons (by decide)
    | cons arg args =>
        rw [printEach, printList, List.append_assoc]
        exact lacks_append (each arg (by simp)).leads.star (each arg (by simp)).leads.solid.ne_nil

end Enclosing

end Atoms

end CypherSql.Cypher
