import CypherSql.Proofs.Printing.Levels

/-! Expressions that a query can hold and whose text is read back, and what their texts open with.
-/

namespace CypherSql.Cypher

open Text

/-- The parts of a function name that can be called by it. A literal is read before any call, and a
`NOT` or a `DISTINCT` before a call by that word alone.
-/
structure FunctionName (first : List Char) (others : List (List Char)) : Prop where
  segments : ∀ segment ∈ first :: others, Segment segment
  literals : ∀ word ∈ ["TRUE", "FALSE", "NULL"], first.map foldCase ≠ word.toList.map foldCase
  alone : others = [] → ∀ word ∈ ["NOT", "DISTINCT"], first.map foldCase ≠ word.toList.map foldCase

/-- Parts of a name with points between them. -/
def dotted (first : List Char) (others : List (List Char)) : List Char :=
  first ++ others.flatMap fun segment => '.' :: segment

/-- An expression that is read from some text and has a canonical one. -/
inductive Expr.Printable : Expr → Prop where
  | integer {value : Int} (small : value.natAbs ≤ Number.largestSigned64)
    : Printable (.literal (.integer value))
  | boolean (value : Bool) : Printable (.literal (.boolean value))
  | null : Printable (.literal .null)
  | text {raw : String} (inside : QuotedBody (quoteFor raw.toList) raw.toList)
    : Printable (.literal (.text raw))
  | var {name : String} (noQuote : '`' ∉ name.toList) : Printable (.var name)
  | parameter {name : String} (nonempty : name.toList ≠ [])
    (isWord : ∀ c ∈ name.toList, isWordChar c)
    : Printable (.parameter name)
  | list {items : List Expr} (each : ∀ item ∈ items, Printable item) : Printable (.list items)
  | map {entries : List (String × Expr)} (keys : ∀ entry ∈ entries, '`' ∉ entry.1.toList)
    (each : ∀ entry ∈ entries, Printable entry.2)
    : Printable (.map entries)
  | property {base : Expr} {key : String} (inner : Printable base) (noQuote : '`' ∉ key.toList)
    : Printable (.property base key)
  | unary {op : UnaryOp} {operand : Expr} (inner : Printable operand)
    (apart : op = .negation → negate operand = .unary .negation operand)
    : Printable (.unary op operand)
  | binary (op : BinaryOp) {left right : Expr} (first : Printable left) (second : Printable right)
    : Printable (.binary op left right)
  | call {name : String} {first others} {args : List Expr} (distinct : Bool)
    (named : FunctionName first others) (whole : name.toList = dotted first others)
    (each : ∀ arg ∈ args, Printable arg)
    (plain : (Expr.call name distinct args).seemsDistinct = false)
    : Printable (.call name distinct args)
  | callAll {name : String} {first others} (distinct : Bool) (named : FunctionName first others)
    (whole : name.toList = dotted first others)
    : Printable (.call name distinct [.star])

theorem Expr.level_le (e : Expr) : e.level ≤ 9 := by
  unfold Expr.level
  split
  · rename_i op _ _
    cases op <;> decide
  · rename_i op _
    cases op <;> decide
  · split <;> decide
  · exact le_rfl

section Leads

variable {c : Char} {level least : Nat} {text others letters tail : List Char}

theorem opensDistinct_append (opens : opensDistinct text = true)
    : opensDistinct (text ++ tail) = true := by
  rw [opensDistinct, List.isPrefixOf_iff_prefix] at opens ⊢
  rw [List.map_append]
  exact opens.trans (List.prefix_append _ _)

theorem lacks_append {d : Char} (lacks : Lacks d text) (nonempty : text ≠ [])
    : Lacks d (text ++ tail) := by
  cases text with
  | nil => exact absurd rfl nonempty
  | cons e text => exact lacks

/-- A text that opens with a mark. -/
theorem leads_of_head (noSpace : isSpace c = false) (noStar : c ≠ '*')
    (noSign : 9 ≤ level → c ≠ '-' ∧ c ≠ '+') (distinct : foldCase c ≠ 'd')
    (negation : 4 ≤ level → foldCase c ≠ 'n')
    : Leads level (c :: others) where
  solid := ⟨c, others, rfl, noSpace⟩
  star := lacks_cons noStar
  signs := fun tight => ⟨lacks_cons (noSign tight).1, lacks_cons (noSign tight).2⟩
  distinct := fun _ rest _ => by
    refine keyword_rejects_head (by decide) ?_
    rw [List.cons_append, skip_cons noSpace]
    exact fun same => distinct (Option.some.inj same).symm
  negation := fun tight rest _ => by
    refine .inl (keyword_rejects_head (by decide) ?_)
    rw [List.cons_append, skip_cons noSpace]
    exact fun same => negation tight (Option.some.inj same).symm

/-- The marks that an expression without operators may open with. -/
theorem leads_of_mark (opens : c ∈ ['(', '[', '\x7b', '`', '$', '\'', '"'])
    : Leads level (c :: others) := by
  have facts
      : isSpace c = false ∧ c ≠ '*' ∧ (c ≠ '-' ∧ c ≠ '+') ∧ foldCase c ≠ 'd'
        ∧ foldCase c ≠ 'n' := by
    simp only [List.mem_cons, List.not_mem_nil, or_false] at opens
    rcases opens with rfl | rfl | rfl | rfl | rfl | rfl | rfl <;> decide
  obtain ⟨noSpace, noStar, noSign, distinct, negation⟩ := facts
  exact leads_of_head noSpace noStar (fun _ => noSign) distinct fun _ => negation

theorem leads_minus : Leads 8 ('-' :: others) :=
  leads_of_head (by decide) (by decide) (by decide) (by decide) (by decide)

theorem leads_not : Leads 3 ("NOT".toList ++ others) := by
  change Leads 3 ('N' :: ('O' :: 'T' :: others))
  exact leads_of_head (by decide) (by decide) (by decide) (by decide) (by decide)

theorem Leads.append (leads : Leads level text) (ends : isWordChar c = false)
    : Leads level (text ++ c :: tail) where
  solid := by
    obtain ⟨d, others, rfl, noSpace⟩ := leads.solid
    exact ⟨d, others ++ c :: tail, rfl, noSpace⟩
  star := lacks_append leads.star leads.solid.ne_nil
  signs := fun tight =>
    ⟨lacks_append (leads.signs tight).1 leads.solid.ne_nil,
      lacks_append (leads.signs tight).2 leads.solid.ne_nil⟩
  distinct := fun plain rest _ => by
    have shorter : opensDistinct text = false :=
      Bool.eq_false_iff.mpr fun opens => Bool.eq_false_iff.mp plain (opensDistinct_append opens)
    rw [List.append_assoc]
    exact leads.distinct shorter _ (wordEnds_cons ends)
  negation := fun tight rest _ => by
    rw [List.append_assoc]
    exact leads.negation tight _ (wordEnds_cons ends)

/-- Texts with commas between them open as the first does. -/
theorem Leads.printList {texts : List (List Char)} (leads : Leads level text)
    : Leads level (printList (text :: texts)) := by
  cases texts with
  | nil => simpa [Cypher.printList] using leads
  | cons next texts => exact leads.append (by decide)

/-- An operand in its place opens as the place asks for. -/
theorem Leads.enclosed (leads : Leads level text)
    : Leads least (enclosed least level text) := by
  unfold Cypher.enclosed
  split
  · exact leads_of_mark (by simp)
  · rename_i tight
    exact leads.mono (Nat.le_of_not_lt tight)

theorem isSpace_of_isWordChar (isWord : isWordChar c) : isSpace c = false := by
  refine Bool.eq_false_iff.mpr fun space => ?_
  simp only [isSpace, Bool.or_eq_true, decide_eq_true_eq] at space
  rcases space with ((rfl | rfl) | rfl) | rfl <;> exact absurd isWord (by decide)

/-- A text that opens with a word. Only a point may follow it if it could be taken for a keyword. -/
theorem leads_of_word (nonempty : letters ≠ []) (isWord : ∀ c ∈ letters, isWordChar c)
    (follow : ∀ rest, WordEnds rest → WordEnds (tail ++ rest))
    (point
      : ∀ word ∈ ["NOT", "DISTINCT"],
          letters.map foldCase = word.toList.map foldCase → tail.head? = some '.')
    : Leads level (letters ++ tail) := by
  obtain ⟨c, others, rfl⟩ := List.exists_cons_of_ne_nil nonempty
  have opening : isWordChar c := isWord c (by simp)
  have noMark (d : Char) (noWord : isWordChar d = false) : Lacks d (c :: others ++ tail) := by
    refine lacks_cons ?_
    rintro rfl
    rw [noWord] at opening
    cases opening
  have solid : Solid (c :: others ++ tail) := ⟨c, _, rfl, isSpace_of_isWordChar opening⟩
  have here (rest : List Char)
      : skip (c :: others ++ tail ++ rest) = c :: others ++ (tail ++ rest) := by
    rw [solid.skip_append, List.append_assoc]
  refine {
    solid := solid
    star := noMark '*' (by decide)
    signs := fun _ => ⟨noMark '-' (by decide), noMark '+' (by decide)⟩
    distinct := fun plain rest ends => ?_
    negation := fun _ rest ends => ?_
  }
  · refine keyword_rejects_word (by decide) (here rest) isWord (follow rest ends) fun same => ?_
    obtain ⟨more, rfl⟩ : ∃ more, tail = '.' :: more :=
      List.head?_eq_some_iff.mp (point "DISTINCT" (by simp) same)
    rw [opensDistinct, List.map_append, same] at plain
    cases plain
  by_cases same : (c :: others).map foldCase = "NOT".toList.map foldCase
  · have plain : IsPlainWord "NOT" := by decide
    have narrow : ∀ d ∈ c :: others, d.utf8Size = 1 :=
      fun d member =>
        utf8Size_of_isAlpha (isAlpha_of_isPlain (forall_isPlain plain.letters same d member))
    obtain ⟨more, rfl⟩ : ∃ more, tail = '.' :: more :=
      List.head?_eq_some_iff.mp (point "NOT" (by simp) same)
    refine .inr ⟨more ++ rest, ?_⟩
    exact keyword_read_letters (by decide) (here rest) same narrow (follow rest ends)
  · exact .inl (keyword_rejects_word (by decide) (here rest) isWord (follow rest ends) same)

/-- A number is a word without letters. -/
theorem leads_printNumber (value : Nat) : Leads level (printNumber value) := by
  have digit (c : Char) (member : c ∈ printNumber value) : c.isDigit :=
    Nat.isDigit_of_mem_toDigits (by decide) (by decide) member
  have noWord (word : String) (plain : IsPlainWord word)
      : (printNumber value).map foldCase ≠ word.toList.map foldCase := by
    intro same
    obtain ⟨c, others, opens⟩ : ∃ c others, printNumber value = c :: others :=
      List.exists_cons_of_ne_nil Nat.toDigits_ne_nil
    have member : c ∈ printNumber value := by simp [opens]
    have alpha := isAlpha_of_isPlain (forall_isPlain plain.letters same c member)
    exact absurd (digit c member) (by simp [not_isDigit_of_isAlpha alpha])
  rw [← List.append_nil (printNumber value)]
  refine leads_of_word Nat.toDigits_ne_nil (fun c member => isWordChar_of_isDigit (digit c member))
    (fun rest ends => ends) fun word listed same => ?_
  have plain : ∀ word ∈ ["NOT", "DISTINCT"], IsPlainWord word := by decide
  exact absurd same (noWord word (plain word listed))

/-- A function name opens the text of a call. -/
theorem FunctionName.leads {first : List Char} {others : List (List Char)}
    (named : FunctionName first others)
    : Leads level (dotted first others ++ '(' :: tail) := by
  have segment : Segment first := named.segments first (by simp)
  cases segment with
  | quoted => exact leads_of_mark (by simp)
  | bare starts isWord =>
      rename_i c letters
      rw [dotted, List.append_assoc]
      refine leads_of_word (by simp) ?_ ?_ fun word listed same => ?_
      · rw [List.forall_mem_cons]
        exact ⟨isWordChar_of_isWordStart starts, isWord⟩
      · intro rest _
        cases others with
        | nil => exact wordEnds_cons (by decide)
        | cons => exact wordEnds_cons (by decide)
      · cases others with
        | nil => exact absurd same (named.alone rfl word listed)
        | cons => rfl

theorem leads_keyword {word : String} (isWord : IsWord word)
    (apart
      : ∀ other ∈ ["NOT", "DISTINCT"], word.toList.map foldCase ≠ other.toList.map foldCase)
    : Leads level word.toList := by
  rw [← List.append_nil word.toList]
  refine leads_of_word isWord.nonempty
    (fun c member => isWordChar_of_isAlpha (isWord.letters c member))
    (fun rest ends => ends) fun other listed same => ?_
  exact absurd same (apart other listed)

theorem leads_literal {value : Literal} (printable : (Expr.literal value).Printable)
    : Leads (Expr.literal value).level (printLiteral value) := by
  cases printable with
  | @integer value small =>
      simp only [Expr.level, printLiteral_integer]
      split
      · exact leads_minus
      · exact leads_printNumber _
  | boolean value =>
      cases value with
      | true => exact leads_keyword (by decide) (by decide)
      | false => exact leads_keyword (by decide) (by decide)
  | null => exact leads_keyword (by decide) (by decide)
  | text inside =>
      refine leads_of_mark ?_
      unfold quoteFor
      split <;> simp

theorem print_call (name : String) (distinct : Bool) (args : List Expr)
    : (Expr.call name distinct args).print
      = name.toList
        ++ '(' :: ((if distinct then "DISTINCT".toList ++ [' '] else [])
          ++ (printList (printEach args) ++ [')'])) := by
  simp only [Expr.print, List.append_assoc, List.cons_append]

/-- The text of an expression opens as its level asks for, by induction over the expression. -/
theorem Expr.Printable.leads {e : Expr} (printable : e.Printable) : Leads e.level e.print := by
  induction printable with
  | integer small => exact leads_literal (.integer small)
  | boolean value => exact leads_literal (.boolean value)
  | null => exact leads_literal .null
  | text inside => exact leads_literal (.text inside)
  | var noQuote => exact leads_of_mark (by simp)
  | parameter nonempty isWord => exact leads_of_mark (by simp)
  | list each => exact leads_of_mark (by simp)
  | map keys each => exact leads_of_mark (by simp)
  | property inner noQuote ih => exact ih.enclosed.append (by decide)
  | @unary op operand inner apart ih =>
      cases op with
      | not => exact leads_not
      | negation => exact leads_minus
      | isNull => exact ih.enclosed.append (by decide)
      | isNotNull => exact ih.enclosed.append (by decide)
  | binary op first second ihFirst ihSecond =>
      exact (ihFirst.enclosed.append (by decide)).append (by decide)
  | call distinct named whole each plain =>
      rw [print_call, whole]
      exact named.leads
  | callAll distinct named whole =>
      rw [print_call, whole]
      exact named.leads

end Leads

end CypherSql.Cypher
