import CypherSql.Proofs.ParsedQueries
import CypherSql.Proofs.Printing.Clauses

/-! Whatever is read as an expression has a canonical text, unless a part of it is a number with a
point or a call whose text cannot be told from another one.
-/

namespace CypherSql.Cypher

open Text

namespace Parser.Ensures

variable {α β : Type} {holds : α → Prop} {parser : Parser α}

theorem padded (ensures : Parser.Ensures holds parser) : Parser.Ensures holds (padded parser) :=
  (any blanks).bind fun _ _ => ensures.bind fun _ fact => (any blanks).bind fun _ _ => .pure fact

theorem many (ensures : Parser.Ensures holds parser)
    : Parser.Ensures (fun values => ∀ value ∈ values, holds value) (Parser.many parser) := by
  refine (ensures.manyAfter false (by simp) (by simp)).bind fun values ⟨all, _⟩ => .pure ?_
  simpa using all

theorem separated1_each {separator : Parser β} (ensures : Parser.Ensures holds parser)
    : Parser.Ensures (fun values => ∀ value ∈ values, holds value)
        (Parser.separated1 separator parser) := by
  refine ensures.bind fun first fact => ?_
  have later : Parser.Ensures holds (separator >>= fun _ => parser) :=
    (any separator).bind fun _ _ => ensures
  refine (later.manyAfter false (by simpa using fact) (by simp)).bind
    fun values ⟨all, _⟩ => .pure ?_
  simpa using all

theorem separated {separator : Parser β} (ensures : Parser.Ensures holds parser)
    : Parser.Ensures (fun values => ∀ value ∈ values, holds value)
        (Parser.separated separator parser) := by
  refine ensures.separated1_each.optional.bind fun found each => ?_
  cases found with
  | none => exact .pure (by simp)
  | some values => exact .pure (each values rfl)

/-- A repeated step keeps what holds of its state and its place, by induction over the number of
times.
-/
theorem iterate_at {step : α → Parser (Option α)} {holds : α → List Char → Prop} {start last : α}
    {source rest : List Char}
    (kept
      : ∀ state place next later,
          holds state place → step state place = .ok (some next) later → holds next later)
    (ended : ∀ state place later,
      holds state place → step state place = .ok none later → holds state later)
    (initial : holds start source) (read : Parser.iterate step start source = .ok last rest)
    : holds last rest := by
  unfold Parser.iterate at read
  generalize source.length = times at read
  induction times generalizing start source with
  | zero =>
      cases read
      exact initial
  | succ times ih =>
      obtain ⟨next, middle, stepped, read⟩ := Parser.bind_eq_ok.mp read
      cases next with
      | none =>
          cases read
          exact ended _ _ _ initial stepped
      | some state => exact ih (kept _ _ _ _ initial stepped) read

end Parser.Ensures

theorem bareName_ensures : Parser.Ensures (fun name => '`' ∉ name) bareName := by
  intro source name rest read member
  obtain ⟨-, -, c, letters, rfl, starts, isWord⟩ := bareName_eq_ok read
  rcases List.mem_cons.mp member with rfl | later
  · exact absurd starts (by decide)
  · exact absurd (isWord '`' later) (by decide)

theorem quotedName_ensures : Parser.Ensures (fun name => '`' ∉ name) quotedName :=
  fun _ _ _ read => (quotedName_eq_ok read).1

theorem symbol_ensures : Parser.Ensures (fun name => '`' ∉ name.toList) symbol := by
  have name : Parser.Ensures (fun name => '`' ∉ name) symbolicName :=
    Parser.Ensures.choice (by simpa using ⟨quotedName_ensures, bareName_ensures⟩)
  exact name.bind fun name noQuote => .pure (by simpa using noQuote)

theorem identifier_ensures : Parser.Ensures (fun name => '`' ∉ name.toList) identifier := by
  have bare : Parser.Ensures (fun name => '`' ∉ name)
      (bareName.satisfying fun name => !isReserved name) := by
    intro source name rest read
    unfold Parser.satisfying at read
    split at read
    · rename_i found
      split at read
      · cases read
        exact bareName_ensures _ _ _ found
      · cases read
    · exact bareName_ensures _ _ _ read
  have name : Parser.Ensures (fun name => '`' ∉ name)
      (Parser.choice [quotedName, bareName.satisfying fun name => !isReserved name]) :=
    Parser.Ensures.choice (by simpa using ⟨quotedName_ensures, bare⟩)
  exact name.bind fun name noQuote => .pure (by simpa using noQuote)

/-- What is read after a name is parts with points in front, by induction over the repetition. -/
theorem many_segments_eq_ok {source rest : List Char} {names : List (List Char)}
    (read : Parser.many (do char '.'; symbolicName) source = .ok names rest)
    : ∃ others : List (List Char),
        (∀ segment ∈ others, Segment segment)
        ∧ source = (others.flatMap fun segment => '.' :: segment) ++ rest := by
  obtain ⟨seen, middle, read, same⟩ := Parser.bind_eq_ok.mp read
  cases same
  rw [Parser.manyAfter_eq] at read
  refine @Parser.Ensures.iterate_at _ _ (fun _ place => ∃ others : List (List Char),
      (∀ segment ∈ others, Segment segment)
      ∧ source = (others.flatMap fun segment => '.' :: segment) ++ place) _ _ _ _ ?_ ?_
    ⟨[], by simp, rfl⟩ read
  · rintro state place next later ⟨others, segments, rfl⟩ stepped
    obtain ⟨found, middle, optional, rest⟩ := Parser.bind_eq_ok.mp stepped
    rcases Parser.optional_eq_ok optional with ⟨value, rfl, one⟩ | ⟨rfl, -⟩
    · cases rest
      obtain ⟨_, after, point, name⟩ := Parser.bind_eq_ok.mp one
      obtain rfl := char_eq_ok.mp point
      obtain ⟨text, segment, rfl, -⟩ := symbolicName_eq_ok name
      refine ⟨others ++ [text], ?_, by simp⟩
      rw [List.forall_mem_append]
      exact ⟨segments, by simpa using segment⟩
    · cases rest
  · rintro state place later ⟨others, segments, rfl⟩ stepped
    obtain ⟨found, middle, optional, rest⟩ := Parser.bind_eq_ok.mp stepped
    rcases Parser.optional_eq_ok optional with ⟨value, rfl, one⟩ | ⟨rfl, rfl⟩
    · cases rest
    · cases rest
      exact ⟨others, segments, rfl⟩

/-- What is read as parts of a name with points between them is such a name. -/
theorem functionName_eq_ok {source rest : List Char} {name : String}
    (read : functionName source = .ok name rest)
    : ∃ first others,
        (∀ segment ∈ first :: others, Segment segment)
        ∧ name.toList = dotted first others
        ∧ source = dotted first others ++ rest
        ∧ (first.head? ≠ some '`'
          → WordEnds ((others.flatMap fun segment => '.' :: segment) ++ rest)) := by
  obtain ⟨text, middle, taken, same⟩ := Parser.bind_eq_ok.mp read
  cases same
  unfold Parser.consumed at taken
  split at taken
  · rename_i names after whole
    cases taken
    obtain ⟨_, middle, opening, later⟩ := Parser.bind_eq_ok.mp whole
    obtain ⟨first, segment, rfl, ends⟩ := symbolicName_eq_ok opening
    obtain ⟨others, segments, rfl⟩ := many_segments_eq_ok later
    refine ⟨first, others, List.forall_mem_cons.mpr ⟨segment, segments⟩, ?_, ?_, ends⟩
    · rw [← List.append_assoc, String.toList_ofList, List.length_append, Nat.add_sub_cancel,
        List.take_left, dotted]
    · rw [dotted, List.append_assoc]
  · cases taken
  · cases taken

section FunctionNames

variable {first source rest : List Char} {others : List (List Char)} {word : String}

/-- A plain letter has the same upper case as its lower case. -/
theorem toUpper_foldCase {c : Char} (plain : isPlain c) : c.toUpper = (foldCase c).toUpper := by
  have notKelvin : c ≠ '\u212a' := by
    rintro rfl
    exact absurd plain (by decide)
  have all : ∀ n < 128, (Char.ofNat n).toUpper = (Char.ofNat n).toLower.toUpper := by decide
  have same := all c.toNat (toNat_lt_of_isAlpha (isAlpha_of_isPlain plain))
  rw [Char.ofNat_toNat] at same
  rw [foldCase, if_neg notKelvin, same]

theorem map_toUpper_eq (plain : IsPlainWord word)
    (same : first.map foldCase = word.toList.map foldCase)
    : first.map Char.toUpper = word.toList.map Char.toUpper := by
  have upper {letters : List Char} (plain : ∀ c ∈ letters, isPlain c)
      : letters.map Char.toUpper = (letters.map foldCase).map Char.toUpper := by
    rw [List.map_map]
    exact List.map_congr_left fun c member => toUpper_foldCase (plain c member)
  rw [upper (forall_isPlain plain.letters same), upper plain.letters, same]

theorem isReserved_of_same (listed : word ∈ reservedWords) (plain : IsPlainWord word)
    (upper : word.toList.map Char.toUpper = word.toList)
    (same : first.map foldCase = word.toList.map foldCase)
    : isReserved first = true := by
  refine List.any_eq_true.mpr ⟨word, listed, ?_⟩
  rw [map_toUpper_eq plain same, upper, beq_self_eq_true]

/-- Where the letters of a keyword open a function name, the keyword is read. -/
theorem keyword_read_first (isWord : IsWord word) (plain : IsPlainWord word)
    (same : first.map foldCase = word.toList.map foldCase)
    (ends
      : first.head? ≠ some '`' → WordEnds ((others.flatMap fun segment => '.' :: segment) ++ rest))
    : ∃ after, keyword word (dotted first others ++ rest) = .ok () after := by
  have letters := forall_isPlain plain.letters same
  have nonempty : first ≠ [] := by
    rintro rfl
    exact isWord.nonempty (List.map_eq_nil_iff.mp same.symm)
  obtain ⟨c, more, rfl⟩ := List.exists_cons_of_ne_nil nonempty
  have alpha : c.isAlpha := isAlpha_of_isPlain (letters c (by simp))
  have bare : (c :: more).head? ≠ some '`' := by
    intro quoted
    cases quoted
    cases alpha
  have here : skip (dotted (c :: more) others ++ rest)
      = c :: more ++ ((others.flatMap fun segment => '.' :: segment) ++ rest) := by
    rw [dotted, List.append_assoc]
    exact skip_cons (isSpace_of_isAlpha alpha)
  exact ⟨_, keyword_read_letters plain.narrow here same
    (fun d member => utf8Size_of_isAlpha (isAlpha_of_isPlain (letters d member))) (ends bare)⟩

/-- A function is called by a name that is no literal, so that the call is read before anything
else.
-/
theorem functionName_of_call {name : String} {distinct : Bool} {args : List Expr}
    (segments : ∀ segment ∈ first :: others, Segment segment)
    (whole : name.toList = dotted first others)
    (ends
      : first.head? ≠ some '`' → WordEnds ((others.flatMap fun segment => '.' :: segment) ++ rest))
    (noLiteral : literal.Rejects (dotted first others ++ rest))
    (unreserved : (Expr.call name distinct args).callsReserved = false)
    : FunctionName first others where
  segments := segments
  literals := by
    have alternatives :=
      Parser.rejects_choice.mp (Parser.rejects_of_bind (fun _ _ => ⟨_, _, rfl⟩) noLiteral)
    have noWord (word : String) (value : Literal) (isWord : IsWord word) (plain : IsPlainWord word)
        (rejects : (keywordAs word value).Rejects (dotted first others ++ rest))
        : first.map foldCase ≠ word.toList.map foldCase := by
      intro same
      obtain ⟨after, read⟩ := keyword_read_first isWord plain same ends
      exact (Parser.rejects_of_bind (fun _ _ => ⟨_, _, rfl⟩) rejects).not_ok read
    simp only [List.forall_mem_cons, List.not_mem_nil, false_imp_iff, implies_true, and_true]
      at alternatives ⊢
    obtain ⟨-, -, -, noTrue, noFalse, noNull⟩ := alternatives
    exact ⟨noWord _ _ (by decide) (by decide) noTrue, noWord _ _ (by decide) (by decide) noFalse,
      noWord _ _ (by decide) (by decide) noNull⟩
  alone := by
    have facts : ∀ word ∈ ["NOT", "DISTINCT"],
        word ∈ reservedWords ∧ IsPlainWord word ∧ word.toList.map Char.toUpper = word.toList := by
      decide
    rintro rfl word listed same
    obtain ⟨reserved, plain, upper⟩ := facts word listed
    rw [Expr.callsReserved, whole, dotted, List.flatMap_nil, List.append_nil,
      isReserved_of_same reserved plain upper same] at unreserved
    cases unreserved

end FunctionNames

/-- No part of an expression is a number with a point, or a call whose text cannot be told from
another one.
-/
def Expr.Admitted (e : Expr) : Prop :=
  ∀ part ∈ e.parts, part.isReal = false ∧ part.callsReserved = false ∧ part.seemsDistinct = false

/-- An expression has a canonical text if it is admitted. -/
def Expr.Canonical (e : Expr) : Prop :=
  e.Admitted → e.Printable

theorem partsEach_eq (items : List Expr) : partsEach items = items.flatMap Expr.parts := by
  induction items with
  | nil => rfl
  | cons item items ih => rw [partsEach, ih, List.flatMap_cons]

theorem partsEntries_eq (entries : List (String × Expr))
    : partsEntries entries = entries.flatMap fun entry => entry.2.parts := by
  induction entries with
  | nil => rfl
  | cons entry entries ih => rw [partsEntries, ih, List.flatMap_cons]

section Admitted

variable {e : Expr}

/-- What holds of all parts of an expression holds of the parts of one inside it. -/
theorem Expr.Admitted.mono {inner : Expr} (admitted : e.Admitted)
    (inside : ∀ part ∈ inner.parts, part ∈ e.parts)
    : inner.Admitted :=
  fun part member => admitted part (inside part member)

theorem Expr.Admitted.not_real {value : Number.Binary64}
    : ¬ (Expr.literal (.real value)).Admitted := by
  simp [Expr.Admitted, Expr.parts, Expr.isReal]

theorem Expr.Admitted.integer (value : Int) : (Expr.literal (.integer value)).Admitted := by
  simp [Expr.Admitted, Expr.parts, Expr.isReal, Expr.callsReserved, Expr.seemsDistinct]

theorem Expr.Admitted.item {items : List Expr} {item : Expr} (admitted : (Expr.list items).Admitted)
    (member : item ∈ items)
    : item.Admitted := by
  refine admitted.mono fun part inside => ?_
  rw [Expr.parts, partsEach_eq]
  exact List.mem_cons_of_mem _ (List.mem_flatMap.mpr ⟨item, member, inside⟩)

theorem Expr.Admitted.value {entries : List (String × Expr)} {entry : String × Expr}
    (admitted : (Expr.map entries).Admitted) (member : entry ∈ entries)
    : entry.2.Admitted := by
  refine admitted.mono fun part inside => ?_
  rw [Expr.parts, partsEntries_eq]
  exact List.mem_cons_of_mem _ (List.mem_flatMap.mpr ⟨entry, member, inside⟩)

theorem Expr.Admitted.argument {name : String} {distinct : Bool} {args : List Expr} {arg : Expr}
    (admitted : (Expr.call name distinct args).Admitted) (member : arg ∈ args)
    : arg.Admitted := by
  refine admitted.mono fun part inside => ?_
  rw [Expr.parts, partsEach_eq]
  exact List.mem_cons_of_mem _ (List.mem_flatMap.mpr ⟨arg, member, inside⟩)

theorem Expr.Admitted.base {key : String} (admitted : (Expr.property e key).Admitted)
    : e.Admitted :=
  admitted.mono fun _ inside => List.mem_cons_of_mem _ inside

theorem Expr.Admitted.operand {op : UnaryOp} (admitted : (Expr.unary op e).Admitted) : e.Admitted :=
  admitted.mono fun _ inside => List.mem_cons_of_mem _ inside

theorem Expr.Admitted.left {op : BinaryOp} {right : Expr}
    (admitted : (Expr.binary op e right).Admitted)
    : e.Admitted :=
  admitted.mono fun _ inside => List.mem_cons_of_mem _ (List.mem_append_left _ inside)

theorem Expr.Admitted.right {op : BinaryOp} {left : Expr}
    (admitted : (Expr.binary op left e).Admitted)
    : e.Admitted :=
  admitted.mono fun _ inside => List.mem_cons_of_mem _ (List.mem_append_right _ inside)

end Admitted

section Canonical

variable {op : UnaryOp} {e left right : Expr}

theorem Expr.Canonical.unary (canonical : e.Canonical) (other : op ≠ .negation)
    : (Expr.unary op e).Canonical :=
  fun admitted => .unary (canonical admitted.operand) fun same => absurd same other

theorem Expr.Canonical.binary {op : BinaryOp} (first : left.Canonical) (second : right.Canonical)
    : (Expr.binary op left right).Canonical :=
  fun admitted => .binary op (first admitted.left) (second admitted.right)

/-- A sign before a number becomes part of it, one before anything else is an operator. -/
theorem Expr.Canonical.negate (canonical : e.Canonical) : (negate e).Canonical := by
  intro admitted
  have sign (apart : Cypher.negate e = .unary .negation e) : (Cypher.negate e).Printable := by
    rw [apart] at admitted ⊢
    exact .unary (canonical admitted.operand) fun _ => apart
  cases e with
  | literal value =>
      cases value with
      | integer value =>
          cases canonical (.integer value) with
          | integer small => exact .integer (by rwa [Int.natAbs_neg])
      | real value => exact absurd admitted Expr.Admitted.not_real
      | boolean value => exact sign rfl
      | text raw => exact sign rfl
      | null => exact sign rfl
  | var name => exact sign rfl
  | parameter name => exact sign rfl
  | list items => exact sign rfl
  | map entries => exact sign rfl
  | property base key => exact sign rfl
  | unary op operand => exact sign rfl
  | binary op left right => exact sign rfl
  | call name distinct args => exact sign rfl
  | star => exact sign rfl

end Canonical

theorem quotedText_ensures (quote : Char)
    : Parser.Ensures (fun raw => QuotedBody quote raw.toList) (quotedText quote) := by
  refine (Parser.Ensures.any _).bind fun _ _ => ?_
  refine .bind (?_ : Parser.Ensures (fun body => QuotedBody quote body) _) fun body inside =>
    (Parser.Ensures.any _).bind fun _ _ => .pure (by simpa using inside)
  intro source value rest read
  dsimp only at read
  split at read
  · rename_i split
    cases read
    exact quotedBody_of_eq_some split
  · cases read
    exact .nil

theorem stringLiteral_ensures
    : Parser.Ensures (fun raw => QuotedBody (quoteFor raw.toList) raw.toList) stringLiteral := by
  refine Parser.Ensures.choice ?_
  simp only [List.forall_mem_cons, List.not_mem_nil, false_imp_iff, implies_true, and_true]
  exact ⟨fun _ _ _ read => (quotedText_ensures _ _ _ _ read).quoteFor (.inl rfl),
    fun _ _ _ read => (quotedText_ensures _ _ _ _ read).quoteFor (.inr rfl)⟩

theorem decimal_ensures (bound : Nat)
    : Parser.Ensures (fun value => value ≤ bound) (digits.reading (decimalUpTo bound)) := by
  intro source value rest read
  unfold Parser.reading at read
  split at read
  · split at read
    · rename_i found
      cases read
      unfold decimalUpTo at found
      split at found
      · cases found
        assumption
      · cases found
    · cases read
  · cases read
  · cases read

theorem literal_ensures : Parser.Ensures Expr.Canonical literal := by
  have values : Parser.Ensures (fun value => (Expr.literal value).Canonical) (Parser.choice [
      realLiteral,
      integerLiteral,
      do
        let raw ← stringLiteral
        pure (.text raw),
      keywordAs "TRUE" (.boolean true),
      keywordAs "FALSE" (.boolean false),
      keywordAs "NULL" .null]) := by
    refine Parser.Ensures.choice ?_
    simp only [List.forall_mem_cons, List.not_mem_nil, false_imp_iff, implies_true, and_true]
    refine ⟨?_, ?_, ?_, ?_, ?_, ?_⟩
    · refine (Parser.Ensures.any _).bind fun _ _ => (Parser.Ensures.any _).bind fun _ _ => ?_
      exact (Parser.Ensures.any _).bind fun _ _ => .pure fun admitted =>
        absurd admitted Expr.Admitted.not_real
    · exact (decimal_ensures _).bind fun value small => .pure fun _ => .integer small
    · exact stringLiteral_ensures.bind fun raw inside => .pure fun _ => .text inside
    · exact (Parser.Ensures.any _).bind fun _ _ => .pure fun _ => .boolean true
    · exact (Parser.Ensures.any _).bind fun _ _ => .pure fun _ => .boolean false
    · exact (Parser.Ensures.any _).bind fun _ _ => .pure fun _ => .null
  exact values.bind fun value canonical => .pure canonical

theorem parameter_ensures : Parser.Ensures Expr.Canonical parameter := by
  have name : Parser.Ensures (fun name => name ≠ [] ∧ ∀ c ∈ name, isWordChar c) (run1 isWordChar) :=
    fun _ _ _ read => ⟨(run1_eq_ok read).2.1, (run1_eq_ok read).2.2.1⟩
  refine (Parser.Ensures.any _).bind fun _ _ => name.bind fun name fact => .pure fun _ => ?_
  exact .parameter (by simpa using fact.1) (by simpa using fact.2)

section Levels

variable {expr : Parser Expr}

/-- The arguments of a call are all of something or expressions. -/
theorem arguments_ensures (inner : Parser.Ensures Expr.Canonical expr)
    : Parser.Ensures (fun args => args = [.star] ∨ ∀ arg ∈ args, arg.Canonical)
      (arguments expr) := by
  refine Parser.Ensures.choice ?_
  simp only [List.forall_mem_cons, List.not_mem_nil, false_imp_iff, implies_true, and_true]
  exact ⟨(Parser.Ensures.any _).bind fun _ _ => .pure (.inl rfl),
    fun _ _ _ read => .inr (inner.separated _ _ _ read)⟩

/-- A call is read where no literal is. -/
theorem functionCall_canonical (inner : Parser.Ensures Expr.Canonical expr)
    {source rest : List Char}
    {e : Expr} (noLiteral : literal.Rejects source) (read : functionCall expr source = .ok e rest)
    : e.Canonical := by
  obtain ⟨name, _, named, read⟩ := Parser.bind_eq_ok.mp read
  obtain ⟨_, _, _, read⟩ := Parser.bind_eq_ok.mp read
  obtain ⟨distinct, _, _, read⟩ := Parser.bind_eq_ok.mp read
  obtain ⟨args, _, inside, read⟩ := Parser.bind_eq_ok.mp read
  obtain ⟨_, _, _, same⟩ := Parser.bind_eq_ok.mp read
  cases same
  obtain ⟨first, others, segments, whole, rfl, ends⟩ := functionName_eq_ok named
  intro admitted
  obtain ⟨-, unreserved, plain⟩ :=
    admitted (.call name distinct.isSome args) (by simp [Expr.parts])
  have called := functionName_of_call segments whole ends noLiteral unreserved
  rcases arguments_ensures inner _ _ _ inside with rfl | each
  · exact .callAll _ called whole
  · exact .call _ called whole (fun arg member => each arg member (admitted.argument member)) plain

theorem mapLiteral_ensures (inner : Parser.Ensures Expr.Canonical expr)
    : Parser.Ensures (fun entries => ∀ entry ∈ entries, '`' ∉ entry.1.toList ∧ entry.2.Canonical)
        (mapLiteral expr) := by
  have entry
      : Parser.Ensures (fun entry : String × Expr => '`' ∉ entry.1.toList ∧ entry.2.Canonical)
      (mapEntry expr) := by
    refine symbol_ensures.padded.bind fun key noQuote => (Parser.Ensures.any _).bind fun _ _ => ?_
    exact inner.bind fun value canonical => .pure ⟨noQuote, canonical⟩
  refine (Parser.Ensures.any _).bind fun _ _ => entry.separated.bind fun entries each => ?_
  exact (Parser.Ensures.any _).bind fun _ _ => .pure each

theorem atom_ensures (inner : Parser.Ensures Expr.Canonical expr)
    : Parser.Ensures Expr.Canonical (atom expr) := by
  have list : Parser.Ensures Expr.Canonical (listLiteral expr) := by
    refine (Parser.Ensures.any _).bind fun _ _ => inner.separated.bind fun items each => ?_
    refine (Parser.Ensures.any _).bind fun _ _ => .pure fun admitted => ?_
    exact .list fun item member => each item member (admitted.item member)
  have map : Parser.Ensures Expr.Canonical (do
      let entries ← mapLiteral expr
      pure (.map entries)) := by
    refine (mapLiteral_ensures inner).bind fun entries each => .pure fun admitted => ?_
    exact .map (fun entry member => (each entry member).1)
      fun entry member => (each entry member).2 (admitted.value member)
  have enclosed : Parser.Ensures Expr.Canonical (parenthesized expr) :=
    (Parser.Ensures.any _).bind fun _ _ => inner.bind fun e canonical =>
      (Parser.Ensures.any _).bind fun _ _ => .pure canonical
  have var : Parser.Ensures Expr.Canonical (do
      let name ← identifier
      pure (.var name)) :=
    identifier_ensures.bind fun name noQuote => .pure fun _ => .var noQuote
  -- A call is the only alternative whose value depends on what the alternatives before it reject.
  intro source e rest read
  cases Parser.choice_eq_ok.mp read with
  | here read => exact literal_ensures _ _ _ read
  | there noLiteral later =>
      cases later with
      | here read => exact parameter_ensures _ _ _ read
      | there _ later =>
          cases later with
          | here read => exact functionCall_canonical inner noLiteral read
          | there _ later =>
              have others : Parser.Ensures Expr.Canonical
                (Parser.choice [listLiteral expr, _, parenthesized expr, _]) :=
                Parser.Ensures.choice (by simpa using ⟨list, map, enclosed, var⟩)
              exact others _ _ _ (Parser.choice_eq_ok.mpr later)

theorem lookups_ensures (inner : Parser.Ensures Expr.Canonical expr)
    : Parser.Ensures Expr.Canonical (lookups expr) := by
  refine (atom_ensures inner).padded.bind fun base canonical => ?_
  refine (Parser.Ensures.iterate canonical fun state canonical => ?_).bind
    fun looked canonical => ?_
  · have key : Parser.Ensures (fun key => '`' ∉ key.toList) (do char '.'; symbol) :=
      (Parser.Ensures.any _).bind fun _ _ => symbol_ensures
    refine key.optional.bind fun found noQuote => .pure fun next same => ?_
    obtain ⟨key, present, rfl⟩ := Option.map_eq_some_iff.mp same
    exact fun admitted => .property (canonical admitted.base) (noQuote key present)
  · exact (Parser.Ensures.any _).bind fun _ _ => .pure canonical

theorem testAt_ensures (level : Nat)
    : Parser.Ensures (fun op => op ≠ .negation) (testAt level) := by
  unfold testAt
  split
  · refine Parser.Ensures.choice ?_
    simp only [List.forall_mem_cons, List.not_mem_nil, false_imp_iff, implies_true, and_true]
    refine ⟨?_, ?_⟩
    · refine (Parser.Ensures.any _).bind fun _ _ => (Parser.Ensures.any _).bind fun _ _ => ?_
      exact (Parser.Ensures.any _).bind fun _ _ => .pure (by decide)
    · refine (Parser.Ensures.any _).bind fun _ _ => ?_
      exact (Parser.Ensures.any _).bind fun _ _ => .pure (by decide)
  · intro source value rest read
    cases read

/-- One round of a level keeps the left operand canonical if the right one is. -/
theorem stepAt_ensures {level : Nat} {left : Expr} (canonical : left.Canonical)
    (operand : Parser.Ensures Expr.Canonical (operandAt expr level))
    : Parser.Ensures (fun next => ∀ later, next = some later → later.Canonical)
        (stepAt expr level left) := by
  refine (testAt_ensures level).optional.bind fun test other => ?_
  cases test with
  | some test =>
      refine .pure ?_
      rintro _ ⟨⟩
      exact canonical.unary (other test rfl)
  | none =>
      refine (Parser.Ensures.any _).bind fun op _ => ?_
      cases op with
      | none => exact .pure (by simp)
      | some op =>
          refine operand.bind fun right second => .pure ?_
          rintro _ ⟨⟩
          exact canonical.binary second

theorem negationsWithin_ensures
    (tighter : Parser.Ensures Expr.Canonical (comparisons expr)) (n : Nat)
    : Parser.Ensures Expr.Canonical (negationsWithin expr n) := by
  induction n with
  | zero =>
      intro source value rest read
      cases read
  | succ n ih =>
      refine Parser.Ensures.choice ?_
      simp only [List.forall_mem_cons, List.not_mem_nil, false_imp_iff, implies_true, and_true]
      refine ⟨(Parser.Ensures.any _).bind fun _ _ => ?_, tighter⟩
      exact ih.bind fun operand canonical => .pure (canonical.unary (by decide))

theorem signedWithin_ensures (tighter : Parser.Ensures Expr.Canonical (lookups expr)) (n : Nat)
    : Parser.Ensures Expr.Canonical (signedWithin expr n) := by
  induction n with
  | zero =>
      intro source value rest read
      cases read
  | succ n ih =>
      refine Parser.Ensures.choice ?_
      simp only [List.forall_mem_cons, List.not_mem_nil, false_imp_iff, implies_true, and_true]
      refine ⟨?_, (Parser.Ensures.any _).bind fun _ _ => ih, tighter⟩
      refine (Parser.Ensures.any _).bind fun _ _ => ?_
      exact ih.bind fun operand canonical => .pure canonical.negate

/-- What a level reads is canonical, from the tightest level on. -/
theorem levelWithin_ensures (inner : Parser.Ensures Expr.Canonical expr) {level : Nat}
    (within : level ≤ 9)
    (n : Nat)
    : Parser.Ensures Expr.Canonical (levelWithin expr n level) := by
  induction within using Nat.decreasingInduction generalizing n with
  | self => exact lookups_ensures inner
  | of_succ level within ih =>
      rcases loop_or_single level within with loop | rfl | rfl
      · have operand : Parser.Ensures Expr.Canonical (operandAt expr level) :=
          fun source value rest read => ih (source.length + 1) source value rest read
        rw [levelWithin_eq_loop loop]
        exact operand.bind fun first canonical =>
          Parser.Ensures.iterate canonical fun left canonical => stepAt_ensures canonical operand
      · exact negationsWithin_ensures (ih 0) n
      · exact signedWithin_ensures (ih 0) n

/-- What is read as an expression is canonical, by induction over the depth of its brackets. -/
theorem expressionWithin_ensures (n : Nat)
    : Parser.Ensures Expr.Canonical (expressionWithin n) := by
  induction n with
  | zero =>
      intro source value rest read
      cases read
  | succ n ih => exact @levelWithin_ensures (expressionWithin n) ih 0 (by decide) 0

theorem expression_ensures : Parser.Ensures Expr.Canonical expression :=
  fun source value rest read => expressionWithin_ensures (source.length + 1) source value rest read

end Levels

end CypherSql.Cypher
