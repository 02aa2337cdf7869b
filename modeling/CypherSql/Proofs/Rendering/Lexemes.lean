import CypherSql.Proofs.JsonTexts
import CypherSql.Proofs.QuotedTokens
import CypherSql.Sql.Expr
import Mathlib.Data.Bool.AllAny

/-! The lexemes of SQL that expressions are written with: values, parameters, columns, words and
marks. A source is cut into them one after the other.
-/

namespace CypherSql

namespace Literal

/-- The value is a number that is written with a minus sign. -/
def isNegative : Literal → Bool
  | .integer value => value < 0
  | .real value => value.isNegative
  | _ => false

/-- The value with the other sign, if it is a number. -/
def opposite (value : Literal) : Literal :=
  value.negated?.getD value

end Literal

namespace Sql

/-- What an expression of SQL is written with. The two names of a column are one lexeme. -/
inductive Lexeme where
  | text (value : String)
  | number (digits : String)
  | parameter (name : String)
  | column (source name : String)
  | word (letters : String)
  | mark (sign : String)
  deriving DecidableEq, Repr

/-- The marks of two characters. Where one of them stands, no mark of one character is read. -/
def doubleMarks : List (Char × Char) :=
  [('<', '>'), ('<', '='), ('>', '='), ('|', '|')]

/-- The marks of one character. -/
def singleMarks : List Char :=
  ['(', ')', '[', ']', ',', '=', '<', '>', '~', '+', '-', '*', '/', '%']

/-- The mark at the start of a source and what is left after it. -/
def mark? : List Char → Option (Lexeme × List Char)
  | [] => none
  | c :: rest =>
      match rest.head?.filter fun d => (c, d) ∈ doubleMarks with
      | some d => some (.mark (String.ofList [c, d]), rest.tail)
      | none => if c ∈ singleMarks then some (.mark (String.ofList [c]), rest) else none

/-- The character can stand in a number. -/
def isNumberChar (c : Char) : Bool :=
  c.isDigit || c = '.'

/-- The characters that satisfy a condition as one lexeme, if there are any, and what is left. -/
def run? (holds : Char → Bool) (lexeme : String → Lexeme) (source : List Char)
    : Option (Lexeme × List Char) :=
  if (source.takeWhile holds).isEmpty then none
  else some (lexeme (String.ofList (source.takeWhile holds)), source.dropWhile holds)

/-- The column whose first name is read already, with a dot and another name behind it. -/
def column? (source : String) (rest : List Char) : Option (Lexeme × List Char) :=
  match Token.read? rest with
  | some (.name _ name, after) => some (.column source name, after)
  | _ => none

/-- The lexeme that starts with a token, and what is left after it. A name in quotes is part of a
column, one without may be a word.
-/
def tokenLexeme? (token : Token) (after : List Char) : Option (Lexeme × List Char) :=
  match token with
  | .text value => some (.text value, after)
  | .name inQuotes name =>
      if after.head? = some '.' then column? name after.tail
      else if inQuotes then none
      else some (.word name, after)

/-- The lexeme at the start of a source and what is left after it. -/
def Lexeme.read? : List Char → Option (Lexeme × List Char)
  | [] => none
  | c :: rest =>
      if c = ':' then run? Text.isWordChar .parameter rest
      else if c.isDigit then run? isNumberChar .number (c :: rest)
      else
        match Token.read? (c :: rest) with
        | some (token, after) => tokenLexeme? token after
        | none => mark? (c :: rest)

/-- The lexemes of a source, a number of them at most, with blanks between them. -/
def lexWithin : Nat → List Char → Option (List Lexeme)
  | 0, _ => none
  | n + 1, source =>
      match source.dropWhile (· = ' ') with
      | [] => some []
      | c :: rest =>
          match Lexeme.read? (c :: rest) with
          | some (lexeme, after) => (lexWithin n after).map (lexeme :: ·)
          | none => none

/-- The lexemes of a source. -/
def lex (source : List Char) : Option (List Lexeme) :=
  lexWithin (source.length + 1) source

section Cutting

variable {source after text more : List Char} {lexemes others : List Lexeme} {lexeme : Lexeme}

theorem lexWithin_mono {n m : Nat} (more : n ≤ m) (read : lexWithin n source = some lexemes)
    : lexWithin m source = some lexemes := by
  induction n generalizing m source lexemes with
  | zero => cases read
  | succ n ih =>
      obtain ⟨m, rfl⟩ : ∃ k, m = k + 1 := ⟨m - 1, by omega⟩
      rw [lexWithin] at read ⊢
      split at read
      · exact read
      · split at read
        · obtain ⟨rest, readRest, same⟩ := Option.map_eq_some_iff.mp read
          rw [ih (by omega) readRest, ← same, Option.map_some]
        · cases read

theorem lex_nil : lex [] = some [] :=
  rfl

/-- A blank is no part of a lexeme. -/
theorem lex_blank (read : lex source = some lexemes) : lex (' ' :: source) = some lexemes :=
  lexWithin_mono (Nat.le_succ _) read

/-- A lexeme that is read stands before those of the rest. -/
theorem lex_cons {c : Char} (noBlank : c ≠ ' ')
    (first : Lexeme.read? (c :: text ++ after) = some (lexeme, after))
    (rest : lex after = some lexemes)
    : lex (c :: text ++ after) = some (lexeme :: lexemes) := by
  have enough : lexWithin (c :: text ++ after).length after = some lexemes := by
    refine lexWithin_mono ?_ rest
    rw [List.length_append, List.length_cons]
    omega
  have noBlanks : (c :: text ++ after).dropWhile (· = ' ') = c :: (text ++ after) := by
    simp [noBlank]
  rw [lex, lexWithin, noBlanks]
  simp only [← List.cons_append, first, enough, Option.map_some]

/-- What may stand behind an expression: nothing, a blank, a comma or something that closes. -/
def Ends (after : List Char) : Prop :=
  ∀ c ∈ after.head?, c = ' ' ∨ c = ',' ∨ c = ')' ∨ c = ']'

/-- A text is cut into lexemes, whatever may stand behind it. -/
def Spells (text : List Char) (lexemes : List Lexeme) : Prop :=
  ∀ after others, Ends after → lex after = some others → lex (text ++ after) = some
    (lexemes ++ others)

theorem ends_nil : Ends [] := by
  intro c member
  cases member

theorem ends_cons {c : Char} (closes : c = ' ' ∨ c = ',' ∨ c = ')' ∨ c = ']') (rest : List Char)
    : Ends (c :: rest) := by
  intro d opens
  obtain rfl := Option.some.inj opens
  exact closes

/-- No character that holds a condition stands behind an expression if none of the allowed does. -/
theorem Ends.lacks {holds : Char → Bool} (ends : Ends after)
    (apart : [' ', ',', ')', ']'].any holds = false)
    : ∀ c ∈ after.head?, holds c = false := by
  intro c opens
  exact Bool.eq_false_iff.mpr (List.any_eq_false.mp apart c (by simpa using ends c opens))

theorem Ends.head?_ne {c : Char} (ends : Ends after) (apart : c ∉ [' ', ',', ')', ']'])
    : after.head? ≠ some c := by
  intro opens
  exact apart (by simpa using ends c opens)

/-- No lexeme of another kind starts with a character that a mark starts with. -/
theorem read?_eq_mark? {c : Char} (opens : c ∈ '|' :: singleMarks) (after : List Char)
    : Lexeme.read? (c :: after) = mark? (c :: after) := by
  have apart : ∀ d ∈ '|' :: singleMarks,
      d ≠ ':' ∧ d.isDigit = false ∧ d ≠ '\'' ∧ d ≠ '"' ∧ isPlainStart d = false :=
    List.all_iff_forall_prop.mp (by decide)
  obtain ⟨noParameter, noDigit, noText, noQuoted, noPlain⟩ := apart c opens
  have noToken : Token.read? (c :: after) = none := by
    simp [Token.read?, noText, noQuoted, noPlain]
  simp only [Lexeme.read?, if_neg noParameter, noDigit, Bool.false_eq_true, if_false, noToken]

/-- A mark of one character, where no mark of two is read. -/
theorem read?_single {c : Char} (single : c ∈ singleMarks)
    (apart : ∀ d ∈ after.head?, (c, d) ∉ doubleMarks)
    : Lexeme.read? (c :: after) = some (.mark (String.ofList [c]), after) := by
  have none : (after.head?.filter fun d => (c, d) ∈ doubleMarks) = none := by
    rw [Option.filter_eq_none_iff]
    intro d opens
    simpa using apart d opens
  rw [read?_eq_mark? (List.mem_cons_of_mem _ single), mark?, none, if_pos single]

theorem read?_double {c d : Char} (double : (c, d) ∈ doubleMarks) (after : List Char)
    : Lexeme.read? (c :: d :: after) = some (.mark (String.ofList [c, d]), after) := by
  have opens : ∀ pair ∈ doubleMarks, pair.1 ∈ '|' :: singleMarks := by decide
  have both : ((d :: after).head?.filter fun d => (c, d) ∈ doubleMarks) = some d := by
    rw [List.head?_cons, Option.filter_some, if_pos (decide_eq_true double)]
  rw [read?_eq_mark? (opens _ double), mark?, both]
  rfl

theorem run?_append {holds : Char → Bool} {lexeme : String → Lexeme} (nonempty : text ≠ [])
    (all : ∀ c ∈ text, holds c) (ends : ∀ c ∈ after.head?, holds c = false)
    : run? holds lexeme (text ++ after) = some (lexeme (String.ofList text), after) := by
  obtain ⟨takes, drops⟩ := Cypher.takeWhile_append_of_ends all ends
  rw [run?, takes, drops, if_neg (by simpa using nonempty)]

theorem read?_parameter (nonempty : text ≠ []) (all : ∀ c ∈ text, Text.isWordChar c)
    (ends : ∀ c ∈ after.head?, Text.isWordChar c = false)
    : Lexeme.read? (':' :: text ++ after) = some (.parameter (String.ofList text), after) := by
  rw [List.cons_append, Lexeme.read?, if_pos rfl]
  exact run?_append nonempty all ends

theorem read?_number {c : Char} (digit : c.isDigit) (all : ∀ d ∈ text, isNumberChar d)
    (ends : ∀ d ∈ after.head?, isNumberChar d = false)
    : Lexeme.read? (c :: text ++ after) = some (.number (String.ofList (c :: text)), after) := by
  have noParameter : c ≠ ':' := by
    rintro rfl
    cases digit
  have allNumber : ∀ d ∈ c :: text, isNumberChar d :=
    List.forall_mem_cons.mpr ⟨by simp [isNumberChar, digit], all⟩
  rw [List.cons_append, Lexeme.read?, if_neg noParameter, if_pos digit, ← List.cons_append]
  exact run?_append (List.cons_ne_nil _ _) allNumber ends

/-- A token of SQL is read where it starts, as no digit and no colon starts one. -/
theorem read?_of_token {token : Token} (read : Token.read? source = some (token, after))
    : Lexeme.read? source = tokenLexeme? token after := by
  cases source with
  | nil => cases read
  | cons c rest =>
      have opens : c = '\'' ∨ c = '"' ∨ isPlainStart c = true := by
        by_contra other
        simp only [not_or, Bool.not_eq_true] at other
        simp [Token.read?, other] at read
      have apart : c ≠ ':' ∧ c.isDigit = false := by
        rcases opens with rfl | rfl | starts
        · decide
        · decide
        · rw [isPlainStart, Bool.or_eq_true, decide_eq_true_eq] at starts
          rcases starts with alpha | rfl
          · refine ⟨?_, Cypher.not_isDigit_of_isAlpha alpha⟩
            rintro rfl
            cases alpha
          · decide
      rw [Lexeme.read?, if_neg apart.1, if_neg (by simp [apart.2]), read]

theorem read?_text (ends : after.head? ≠ some '\'') (value : String)
    : Lexeme.read? ((literal (.text value)).toList ++ after) = some (.text value, after) :=
  read?_of_token (read?_literal_text ends value)

/-- The two names of a column are read together, each in quotes or not. -/
theorem read?_column (noQuote : after.head? ≠ some '"')
    (ends : ∀ c ∈ after.head?, isPlainChar c = false) (source name : String)
    : Lexeme.read? ((identifier source).toList ++ '.' :: ((identifier name).toList ++ after))
      = some (.column source name, after) := by
  have dotEnds
      : ∀ c ∈ ('.' :: ((identifier name).toList ++ after)).head?, isPlainChar c = false := by
    intro c opens
    obtain rfl := Option.some.inj opens
    rfl
  rw [read?_of_token (read?_identifier (by simp) dotEnds source)]
  simp only [tokenLexeme?, List.head?_cons, if_true, List.tail_cons, column?,
    read?_identifier noQuote ends name]

theorem read?_word (plain : isPlain text) (noDot : after.head? ≠ some '.')
    (ends : ∀ c ∈ after.head?, isPlainChar c = false)
    : Lexeme.read? (text ++ after) = some (.word (String.ofList text), after) := by
  rw [read?_of_token (read?_plain plain ends)]
  simp only [tokenLexeme?, if_neg noDot, Bool.false_eq_true, if_false]

/-- A text that is cut into nothing. -/
theorem spells_nil : Spells [] [] :=
  fun _ _ _ read => read

/-- A text of one lexeme that starts with no blank. -/
theorem spells_one {c : Char} (noBlank : c ≠ ' ')
    (read : ∀ after, Ends after → Lexeme.read? (c :: text ++ after) = some (lexeme, after))
    : Spells (c :: text) [lexeme] :=
  fun after _ ends rest => lex_cons noBlank (read after ends) rest

/-- A mark stands before a text, without a blank between them. -/
theorem Spells.after_single {c : Char} (spells : Spells text lexemes) (single : c ∈ singleMarks)
    (alone : ∀ pair ∈ doubleMarks, pair.1 ≠ c)
    : Spells (c :: text) (.mark (String.ofList [c]) :: lexemes) := by
  intro after others ends rest
  have noBlank : c ≠ ' ' := by
    rintro rfl
    revert single
    decide
  have read
      : Lexeme.read? ([c] ++ (text ++ after)) = some (.mark (String.ofList [c]), text ++ after) :=
    read?_single single fun _ _ double => alone _ double rfl
  have whole := lex_cons noBlank read (spells after others ends rest)
  exact whole

/-- A text stands before another one, with a blank between them. -/
theorem Spells.spaced (first : Spells text lexemes) (second : Spells more others)
    : Spells (text ++ ' ' :: more) (lexemes ++ others) := by
  intro after rest ends read
  rw [List.append_assoc, List.append_assoc, List.cons_append]
  exact first _ _ (ends_cons (by simp) _) (lex_blank (second after rest ends read))

/-- A text stands before something that closes, and a text behind that. -/
theorem Spells.closed {c : Char} (first : Spells text lexemes)
    (closes : c = ',' ∨ c = ')' ∨ c = ']')
    (second : Spells more others)
    : Spells (text ++ c :: more) (lexemes ++ .mark (String.ofList [c]) :: others) := by
  intro after rest ends read
  have single : c ∈ singleMarks ∧ ∀ pair ∈ doubleMarks, pair.1 ≠ c := by
    rcases closes with rfl | rfl | rfl <;> decide
  rw [List.append_assoc, List.append_assoc]
  refine first _ _ (ends_cons ?_ _) (second.after_single single.1 single.2 after rest ends read)
  exact .inr closes

/-- The text starts with a digit and goes on as a number. -/
def IsNumeral (text : List Char) : Prop :=
  ∃ c rest, text = c :: rest ∧ c.isDigit ∧ ∀ d ∈ rest, isNumberChar d

/-- The lexeme of a value that is no negative number. An infinite number is written as a word. -/
def valueLexeme : Literal → Lexeme
  | .integer value => .number (toString value)
  | .real (.infinite _) => .word "inf"
  | .real value => .number (real value)
  | .boolean true => .word "TRUE"
  | .boolean false => .word "FALSE"
  | .text value => .text value
  | .null => .word "NULL"

theorem isNumberChar_of_isDigit {c : Char} (digit : c.isDigit) : isNumberChar c := by
  rw [isNumberChar, digit, Bool.true_or]

theorem isNumeral_digits (n : Nat) : IsNumeral (Nat.toDigits 10 n) := by
  obtain ⟨c, others, same, digit⟩ := Json.exists_digits n
  refine ⟨c, others, same, digit, fun d member => isNumberChar_of_isDigit ?_⟩
  exact Json.isDigit_of_mem_digits d (same ▸ List.mem_cons_of_mem c member)

theorem IsNumeral.append (numeral : IsNumeral text) (all : ∀ c ∈ more, isNumberChar c)
    : IsNumeral (text ++ more) := by
  obtain ⟨c, rest, rfl, digit, inside⟩ := numeral
  refine ⟨c, rest ++ more, rfl, digit, fun d member => ?_⟩
  exact (List.mem_append.mp member).elim (inside d) (all d)

/-- The digits of a decimal have a point among them at most. -/
theorem isNumeral_positional (digits : Nat) (power : Int)
    : IsNumeral (Number.positional digits power) := by
  unfold Number.positional
  split
  · exact isNumeral_digits _
  · refine (isNumeral_digits _).append fun c member => ?_
    split at member
    · cases member
    · rcases List.mem_cons.mp member with rfl | kept
      · rfl
      · have inside :=
          List.mem_reverse.mp ((List.dropWhile_sublist _).mem (List.mem_reverse.mp kept))
        apply isNumberChar_of_isDigit
        rcases List.mem_append.mp inside with zero | digit
        · rw [List.eq_of_mem_replicate zero]
          rfl
        · exact Json.isDigit_of_mem_digits c digit

/-- A finite number without a minus sign starts with a digit. -/
theorem isNumeral_real (mantissa : Nat) (exponent : Int)
    : IsNumeral (real (.finite false mantissa exponent)).toList := by
  unfold real
  split
  · rename_i magnitude _
    have text
        : (Number.Binary64.signText (Number.Binary64.finite false mantissa exponent).isNegative
        ++ toString magnitude ++ ".0").toList = Nat.toDigits 10 magnitude ++ ['.', '0'] := by
      simp [Number.Binary64.signText, Number.Binary64.isNegative]
    rw [text]
    exact (isNumeral_digits magnitude).append (List.all_eq_true.mp (by decide))
  · unfold Number.Binary64.text
    split
    · rename_i same
      cases same
      exact ⟨'0', [], by simp [Number.Binary64.signText], rfl, by simp⟩
    · rename_i same
      cases same
      simpa [Number.Binary64.signText] using isNumeral_positional _ _
    · contradiction

theorem spells_numeral (numeral : IsNumeral text) : Spells text [.number (String.ofList text)] := by
  obtain ⟨c, rest, rfl, digit, inside⟩ := numeral
  refine spells_one ?_ fun after ends => read?_number digit inside (ends.lacks (by decide))
  rintro rfl
  cases digit

theorem spells_word (plain : isPlain text) : Spells text [.word (String.ofList text)] := by
  cases text with
  | nil => cases plain
  | cons c rest =>
      refine spells_one ?_ fun after ends => ?_
      · rintro rfl
        cases plain
      · exact read?_word plain (ends.head?_ne (by decide)) (ends.lacks (by decide))

/-- A value without a minus sign is written as a number, as a word or as a text in quotes. -/
theorem value_cases {value : Literal} (unsigned : value.isNegative = false)
    : (IsNumeral (literal value).toList ∧ valueLexeme value = .number (literal value))
      ∨ (isPlain (literal value).toList ∧ valueLexeme value = .word (literal value))
      ∨ ∃ text, value = .text text := by
  cases value with
  | integer value =>
      obtain ⟨n, rfl⟩ : ∃ n : Nat, value = n :=
        Int.eq_ofNat_of_zero_le (by simpa [Literal.isNegative] using unsigned)
      have digits : (literal (.integer n)).toList = Nat.toDigits 10 n :=
        Json.toList_toString_ofNat n
      exact .inl ⟨digits ▸ isNumeral_digits n, rfl⟩
  | real value =>
      cases value with
      | finite negative mantissa exponent =>
          obtain rfl : negative = false := unsigned
          exact .inl ⟨isNumeral_real mantissa exponent, rfl⟩
      | infinite negative =>
          obtain rfl : negative = false := unsigned
          exact .inr (.inl ⟨by decide, rfl⟩)
  | boolean value => cases value <;> exact .inr (.inl ⟨by decide, rfl⟩)
  | text value => exact .inr (.inr ⟨value, rfl⟩)
  | null => exact .inr (.inl ⟨by decide, rfl⟩)

/-- A value without a minus sign is one lexeme. -/
theorem spells_value (value : Literal) (unsigned : value.isNegative = false)
    : Spells (literal value).toList [valueLexeme value] := by
  rcases value_cases unsigned with ⟨numeral, same⟩ | ⟨plain, same⟩ | ⟨text, rfl⟩
  · rw [same]
    simpa using spells_numeral numeral
  · rw [same]
    simpa using spells_word plain
  · intro after others ends rest
    have read := read?_text (ends.head?_ne (by decide)) text
    have opens
        : (literal (.text text)).toList = '\'' :: (doubleQuotes '\'' text.toList ++ ['\'']) := by
      simp [literal, quoted]
    rw [opens] at read ⊢
    exact lex_cons (by decide) read rest

/-- A finite number with a minus sign is written as that sign before the number without it. -/
theorem real_negative (mantissa : Nat) (exponent : Int)
    : real (.finite true mantissa exponent) = "-" ++ real (.finite false mantissa exponent) := by
  have magnitude : (Number.Binary64.finite true mantissa exponent).natural?
      = (Number.Binary64.finite false mantissa exponent).natural? := rfl
  unfold real
  rw [magnitude]
  split
  · simp [Number.Binary64.signText, Number.Binary64.isNegative, String.append_assoc]
  · cases mantissa <;> simp [Number.Binary64.text, Number.Binary64.signText]

/-- A number with a minus sign is written as that sign before the number with the other sign. -/
theorem literal_of_isNegative {value : Literal} (negative : value.isNegative)
    : (literal value).toList = '-' :: (literal value.opposite).toList
      ∧ value.opposite.isNegative = false := by
  cases value with
  | integer value =>
      cases value with
      | ofNat n => exact absurd negative (by simp [Literal.isNegative])
      | negSucc n =>
          have opposite : (Literal.integer (.negSucc n)).opposite
            = .integer (Int.ofNat (n + 1)) := rfl
          have unsigned := Json.toList_toString_ofNat (n + 1)
          rw [opposite]
          refine ⟨(Json.toList_toString_negSucc n).trans (congrArg ('-' :: ·) unsigned.symm), ?_⟩
          simp [Literal.isNegative]
          omega
  | real value =>
      cases value with
      | finite sign mantissa exponent =>
          obtain rfl : sign = true := negative
          refine ⟨?_, rfl⟩
          rw [literal, real_negative, String.toList_append]
          rfl
      | infinite sign =>
          obtain rfl : sign = true := negative
          exact ⟨rfl, rfl⟩
  | boolean _ => cases negative
  | text _ => cases negative
  | null => cases negative

/-- A literal is one lexeme, or two if it has a minus sign. -/
def literalLexemes (value : Literal) : List Lexeme :=
  if value.isNegative then [.mark "-", valueLexeme value.opposite] else [valueLexeme value]

theorem spells_literal (value : Literal)
    : Spells (literal value).toList (literalLexemes value) := by
  unfold literalLexemes
  split
  · rename_i negative
    obtain ⟨signed, unsigned⟩ := literal_of_isNegative negative
    rw [signed]
    exact (spells_value _ unsigned).after_single (c := '-') (by decide) (by decide)
  · rename_i unsigned
    exact spells_value value (by simpa using unsigned)

end Cutting

end Sql

end CypherSql
