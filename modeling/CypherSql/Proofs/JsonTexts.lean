import CypherSql.Data.Json
import CypherSql.Proofs.Printing.Lexemes
import Mathlib.Data.List.DropRight
import Mathlib.Data.List.Forall2
import Mathlib.Data.List.TakeDrop

/-! What is printed as JSON on several lines is read back: characters, numbers, then values by the
structure of the document.
-/

namespace CypherSql.Json

-----------------------------------------------------------------------------------------
-- Blanks
-----------------------------------------------------------------------------------------

section Blanks

variable {c : Char} {gap source : List Char}

theorem skip_cons (noSpace : isSpace c = false) : skip (c :: source) = c :: source :=
  List.dropWhile_cons_of_neg (by simp [noSpace])

theorem skip_skip (source : List Char) : skip (skip source) = skip source :=
  List.dropWhile_idempotent _ _

theorem skip_append (blank : ∀ c ∈ gap, isSpace c) : skip (gap ++ source) = skip source :=
  List.dropWhile_append_of_pos blank

theorem skip_line (blank : ∀ c ∈ gap, isSpace c) : skip ('\n' :: (gap ++ source)) = skip source :=
  (List.dropWhile_cons_of_pos rfl).trans (skip_append blank)

theorem isSpace_of_mem_indentation {depth : Nat} : ∀ c ∈ (indentation depth).toList, isSpace c := by
  intro c member
  rw [indentation, String.toList_ofList] at member
  rw [List.eq_of_mem_replicate member]
  rfl

/-- The text opens with a character that is no blank and closes neither a list nor a record. -/
def Opens (text : List Char) : Prop :=
  ∃ c others, text = c :: others ∧ isSpace c = false ∧ c ≠ ']' ∧ c ≠ '\x7d'

theorem Opens.skip_append {text : List Char} (opens : Opens text) (rest : List Char)
    : skip (text ++ rest) = text ++ rest := by
  obtain ⟨c, others, rfl, noSpace, -⟩ := opens
  exact skip_cons noSpace

theorem Opens.head?_ne {text : List Char} (opens : Opens text) (rest : List Char)
    : (text ++ rest).head? ≠ some ']' ∧ (text ++ rest).head? ≠ some '\x7d' := by
  obtain ⟨c, others, rfl, -, closes⟩ := opens
  simpa using closes

end Blanks

-----------------------------------------------------------------------------------------
-- Texts
-----------------------------------------------------------------------------------------

theorem digitsValue?_hexPair : ∀ n < 32, digitsValue? 16 ('0' :: '0' :: hexPair n) = some n := by
  decide

/-- A control character is read back from its code. -/
theorem escapedUnit?_hexPair {c : Char} (control : c.toNat < 32) (rest : List Char)
    : escapedUnit? ('0' :: '0' :: (hexPair c.toNat ++ rest)) = some (some c, rest) := by
  have value := digitsValue?_hexPair c.toNat control
  rw [hexPair] at value ⊢
  have unit : codeUnit? ('0' :: '0' :: ([Nat.digitChar (c.toNat / 16), Nat.digitChar (c.toNat % 16)]
      ++ rest)) = some (c.toNat, rest) := by
    simp [codeUnit?, value]
  rw [escapedUnit?, unit, Option.bind_eq_bind, Option.bind_some]
  simp only [if_pos (.inl (by omega) : c.toNat < 0xd800 ∨ 0xdfff < c.toNat), Char.ofNat_toNat]
  rfl

/-- A character is written as an escape that denotes it, or as itself where it needs none. -/
theorem quotedChar_cases (c : Char) (rest : List Char)
    : (∃ escape, quotedChar c ++ rest = '\\' :: escape ∧ escaped? escape = some (some c, rest))
      ∨ quotedChar c = [c] ∧ c ≠ '"' ∧ c ≠ '\\' ∧ ¬c.toNat < 32 := by
  by_cases named : c ∈ ['"', '\\', '\n', '\r', '\t', '\x08', '\x0c']
  · simp only [List.mem_cons, List.not_mem_nil, or_false] at named
    rcases named with rfl | rfl | rfl | rfl | rfl | rfl | rfl <;> exact .inl ⟨_, rfl, rfl⟩
  simp only [List.mem_cons, List.not_mem_nil, or_false, not_or] at named
  obtain ⟨isQuote, isBackslash, notLine, notReturn, notTab, notBackspace, notFeed⟩ := named
  rw [quotedChar, if_neg isQuote, if_neg isBackslash, if_neg notLine, if_neg notReturn,
    if_neg notTab, if_neg notBackspace, if_neg notFeed]
  split
  · rename_i control
    exact .inl ⟨_, rfl, escapedUnit?_hexPair control rest⟩
  · rename_i printable
    exact .inr ⟨rfl, isQuote, isBackslash, printable⟩

/-- One step reads one character, however it is written. -/
theorem stringWithin_quotedChar {n : Nat} {cs rest after : List Char}
    (others : stringWithin n rest = some (some cs, after)) (c : Char)
    : stringWithin (n + 1) (quotedChar c ++ rest) = some (some (c :: cs), after) := by
  rcases quotedChar_cases c rest with
    ⟨escape, written, denotes⟩ | ⟨written, notQuote, notBackslash, printable⟩
  · rw [written, stringWithin, denotes]
    simp [others]
  · rw [written, List.singleton_append, stringWithin]
    · rw [if_neg printable]
      simp [others]
    · exact fun same => absurd same notQuote
    · exact fun same => absurd same notBackslash

theorem length_quotedChar_pos (c : Char) : 0 < (quotedChar c).length := by
  rcases quotedChar_cases c [] with ⟨escape, written, -⟩ | ⟨written, -⟩
  · rw [List.append_nil] at written
    simp [written]
  · simp [written]

/-- Quoted characters are read up to the closing quote, by induction over them. -/
theorem stringWithin_quoted {n : Nat} {text : List Char} (rest : List Char)
    (enough : (text.flatMap quotedChar).length < n)
    : stringWithin n (text.flatMap quotedChar ++ '"' :: rest) = some (some text, rest) := by
  obtain ⟨n, rfl⟩ := Nat.exists_eq_succ_of_ne_zero (Nat.ne_zero_of_lt enough)
  induction text generalizing n with
  | nil => simp [stringWithin]
  | cons c text ih =>
      have positive := length_quotedChar_pos c
      rw [List.flatMap_cons, List.length_append] at enough
      obtain ⟨n, rfl⟩ := Nat.exists_eq_succ_of_ne_zero (by omega : n ≠ 0)
      rw [List.flatMap_cons, List.append_assoc]
      exact stringWithin_quotedChar (ih n (by omega)) c

theorem toList_quoted (value : String) (rest : List Char)
    : (quoted value).toList ++ rest = '"' :: (value.toList.flatMap quotedChar ++ '"' :: rest) := by
  simp [quoted]

/-- A text is read up to its closing quote. -/
theorem string?_quoted (value : String) (rest : List Char)
    : string? (value.toList.flatMap quotedChar ++ '"' :: rest) = some (some value, rest) := by
  have enough : (value.toList.flatMap quotedChar).length
      < (value.toList.flatMap quotedChar ++ '"' :: rest).length := by
    simp
  rw [string?, stringWithin_quoted rest enough]
  simp

-----------------------------------------------------------------------------------------
-- Numbers
-----------------------------------------------------------------------------------------

theorem digitValue?_digitChar : ∀ n < 10, digitValue? 10 (Nat.digitChar n) = some n := by
  decide

/-- The decimal digits of a number denote it, by induction over the number with its last digit taken
off.
-/
theorem digitsValue?_toDigits (n : Nat) : digitsValue? 10 (Nat.toDigits 10 n) = some n := by
  rw [digitsValue?, if_neg (by simp)]
  induction n using Nat.strongRecOn with
  | ind n ih =>
      rcases Nat.lt_or_ge n 10 with small | large
      · simp [Nat.toDigits_of_lt_base small, digitValue?_digitChar n small]
      · rw [Nat.toDigits_of_base_le (by decide) large, List.foldlM_append, ih (n / 10) (by omega)]
        simp [digitValue?_digitChar (n % 10) (by omega), Nat.div_add_mod]

/-- A number with several digits does not start with a zero. -/
theorem head?_toDigits {n : Nat} (positive : 0 < n) : (Nat.toDigits 10 n).head? ≠ some '0' := by
  induction n using Nat.strongRecOn with
  | ind n ih =>
      rcases Nat.lt_or_ge n 10 with small | large
      · have digit : ∀ n < 10, 0 < n → Nat.digitChar n ≠ '0' := by decide
        simpa [Nat.toDigits_of_lt_base small] using digit n small positive
      · rw [Nat.toDigits_of_base_le (by decide) large,
          List.head?_append_of_ne_nil _ Nat.toDigits_ne_nil]
        exact ih (n / 10) (by omega) (by omega)

/-- No number goes on at the start of the source. -/
def NumberEnds (source : List Char) : Prop :=
  ∀ c ∈ source.head?, c.isDigit = false ∧ c ≠ '.' ∧ c ≠ 'e' ∧ c ≠ 'E'

theorem isDigit_of_mem_digits {n : Nat} : ∀ c ∈ Nat.toDigits 10 n, c.isDigit :=
  fun _ => Nat.isDigit_of_mem_toDigits (by decide) (by decide)

theorem wholePart?_toDigits {rest : List Char} (ends : NumberEnds rest) (n : Nat)
    : wholePart? (Nat.toDigits 10 n ++ rest) = some (Nat.toDigits 10 n, rest) := by
  obtain ⟨takes, drops⟩ := Cypher.takeWhile_append_of_ends (@isDigit_of_mem_digits n)
    fun c opens => (ends c opens).1
  rw [wholePart?, List.span_eq_takeWhile_dropWhile, takes, drops]
  split
  · rename_i none
    exact absurd (Prod.mk.inj none).1 Nat.toDigits_ne_nil
  · rename_i same
    rcases Nat.eq_zero_or_pos n with rfl | positive
    · cases (Prod.mk.inj same).1
    · exact absurd (congrArg List.head? (Prod.mk.inj same).1) (head?_toDigits positive)
  · rename_i same
    rw [← (Prod.mk.inj same).1, ← (Prod.mk.inj same).2]

theorem numberTail?_of_ends {rest : List Char} (ends : NumberEnds rest)
    : numberTail? rest = some ([], rest) := by
  cases rest with
  | nil => rfl
  | cons c rest =>
      obtain ⟨-, notPoint, notLower, notUpper⟩ := ends c rfl
      unfold numberTail?
      split
      · rename_i same
        exact absurd (List.cons.inj same).1 notPoint
      · simp [notLower, notUpper]

theorem toList_toString_ofNat (n : Nat) : (toString (Int.ofNat n)).toList = Nat.toDigits 10 n :=
  Nat.toList_repr

theorem toList_toString_negSucc (n : Nat)
    : (toString (Int.negSucc n)).toList = '-' :: Nat.toDigits 10 (n + 1) := by
  change ("-" ++ (n + 1).repr).toList = _
  rw [String.toList_append, Nat.toList_repr]
  rfl

theorem exists_digits (n : Nat) : ∃ c others, Nat.toDigits 10 n = c :: others ∧ c.isDigit := by
  obtain ⟨c, others, same⟩ := List.exists_cons_of_ne_nil (@Nat.toDigits_ne_nil n 10)
  exact ⟨c, others, same, @isDigit_of_mem_digits n c (by simp [same])⟩

theorem number?_unsigned {rest : List Char} (ends : NumberEnds rest) (n : Nat)
    : number? (Nat.toDigits 10 n ++ rest) = some (numberOf false (Nat.toDigits 10 n) [], rest) := by
  have whole := wholePart?_toDigits ends n
  obtain ⟨c, others, opens, digit⟩ := exists_digits n
  have unsigned : c ≠ '-' := by
    rintro rfl
    cases digit
  rw [opens, List.cons_append] at whole ⊢
  unfold number?
  split
  · rename_i negative same
    split at same
    · rename_i minus
      exact absurd (List.cons.inj minus).1 unsigned
    · cases same
      simp [whole, numberTail?_of_ends ends]

theorem number?_signed {rest : List Char} (ends : NumberEnds rest) (n : Nat)
    : number? ('-' :: (Nat.toDigits 10 n ++ rest))
      = some (numberOf true (Nat.toDigits 10 n) [], rest) := by
  simp [number?, wholePart?_toDigits ends, numberTail?_of_ends ends]

/-- An integer is read back if it fits into 64 bits, with a sign or without. -/
theorem number?_toString {value : Int} {rest : List Char} (ends : NumberEnds rest)
    (least : -(Number.largestSigned64 + 1) ≤ value) (most : value ≤ Number.largestWord64)
    : number? ((toString value).toList ++ rest) = some (.integer value, rest) := by
  have digits (n : Nat) : (digitsValue? 10 (Nat.toDigits 10 n)).getD 0 = n := by
    rw [digitsValue?_toDigits, Option.getD_some]
  cases value with
  | ofNat n =>
      have small : n ≤ Number.largestWord64 := Int.ofNat_le.mp most
      rw [toList_toString_ofNat, number?_unsigned ends]
      simp [numberOf, digits, small]
  | negSucc n =>
      have small : n + 1 ≤ Number.largestSigned64 + 1 := by omega
      rw [toList_toString_negSucc, List.cons_append, number?_signed ends]
      simp [numberOf, digits, small, Int.negSucc_eq]

-----------------------------------------------------------------------------------------
-- Values
-----------------------------------------------------------------------------------------

/-- The text is read as the document wherever it stands, in steps within twice its length, if no
number goes on after it.
-/
structure IsText (document : Document) (text : List Char) : Prop where
  opens : Opens text
  read
    : ∀ {n source rest},
        skip source = text ++ rest
        → NumberEnds rest
        → 2 * text.length < n
        → valueWithin n source = some (document, rest)

/-- What is read as a value stands behind the blanks. -/
theorem valueWithin_skip (n : Nat) (source : List Char)
    : valueWithin n (skip source) = valueWithin n source := by
  cases n with
  | zero => rfl
  | succ n => rw [valueWithin, valueWithin, skip_skip]

theorem word?_append (word : String) (rest : List Char)
    : word? word (word.toList ++ rest) = some rest := by
  rw [word?, if_pos (by simp), ← String.length_toList, List.drop_left]

theorem isText_null : IsText .null (scalar .null).toList where
  opens := ⟨_, _, rfl, rfl, by decide⟩
  read := by
    intro n source rest here _ enough
    obtain ⟨n, rfl⟩ := Nat.exists_eq_succ_of_ne_zero (Nat.ne_zero_of_lt enough)
    have here : skip source = 'n' :: ("ull".toList ++ rest) := here
    rw [← valueWithin_skip, here]
    exact congrArg (Option.map (Document.null, ·)) (word?_append "ull" rest)

theorem isText_boolean (value : Bool)
    : IsText (.boolean value) (scalar (.boolean value)).toList where
  opens := by cases value <;> exact ⟨_, _, rfl, rfl, by decide⟩
  read := by
    intro n source rest here _ enough
    obtain ⟨n, rfl⟩ := Nat.exists_eq_succ_of_ne_zero (Nat.ne_zero_of_lt enough)
    cases value with
    | false =>
        have here : skip source = 'f' :: ("alse".toList ++ rest) := here
        rw [← valueWithin_skip, here]
        exact congrArg (Option.map (Document.boolean false, ·)) (word?_append "alse" rest)
    | true =>
        have here : skip source = 't' :: ("rue".toList ++ rest) := here
        rw [← valueWithin_skip, here]
        exact congrArg (Option.map (Document.boolean true, ·)) (word?_append "rue" rest)

theorem isText_text (value : String) : IsText (.text value) (scalar (.text value)).toList where
  opens := ⟨'"', _, by simp [scalar, quoted]; rfl, rfl, by decide⟩
  read := by
    intro n source rest here _ enough
    obtain ⟨n, rfl⟩ := Nat.exists_eq_succ_of_ne_zero (Nat.ne_zero_of_lt enough)
    rw [scalar, toList_quoted] at here
    rw [← valueWithin_skip, here]
    exact congrArg (Option.map fun read => (textOf read.1, read.2)) (string?_quoted value rest)

/-- The character is a digit or a minus sign. -/
def opensNumber (c : Char) : Bool :=
  c.isDigit || c == '-'

theorem valueWithin_number {n : Nat} {c : Char} {source others : List Char}
    (here : skip source = c :: others) (opens : opensNumber c)
    : valueWithin (n + 1) source = number? (c :: others) := by
  rw [valueWithin, here]
  split
  all_goals
    rename_i same
    try
      rw [(List.cons.inj same).1] at opens
      cases opens
  rfl

theorem exists_opensNumber (value : Int)
    : ∃ c others, (toString value).toList = c :: others ∧ opensNumber c := by
  cases value with
  | ofNat n =>
      obtain ⟨c, others, same, digit⟩ := exists_digits n
      exact ⟨c, others, by rw [toList_toString_ofNat, same], by simp [opensNumber, digit]⟩
  | negSucc n => exact ⟨'-', _, toList_toString_negSucc n, rfl⟩

theorem isText_integer {value : Int} (least : -(Number.largestSigned64 + 1) ≤ value)
    (most : value ≤ Number.largestWord64)
    : IsText (.integer value) (scalar (.integer value)).toList where
  opens := by
    obtain ⟨c, others, same, opens⟩ := exists_opensNumber value
    refine ⟨c, others, same, Bool.eq_false_iff.mpr ?_, ?_, ?_⟩
    · intro space
      simp only [isSpace, Bool.or_eq_true, decide_eq_true_eq] at space
      rcases space with ((rfl | rfl) | rfl) | rfl <;> cases opens
    · rintro rfl
      cases opens
    · rintro rfl
      cases opens
  read := by
    intro n source rest here ends enough
    obtain ⟨n, rfl⟩ := Nat.exists_eq_succ_of_ne_zero (Nat.ne_zero_of_lt enough)
    have number := number?_toString ends least most
    obtain ⟨c, others, same, opens⟩ := exists_opensNumber value
    rw [scalar, same] at here
    rw [same] at number
    exact (valueWithin_number here opens).trans number

-----------------------------------------------------------------------------------------
-- Lists and records
-----------------------------------------------------------------------------------------

/-- Parts after the first one, each on a line of its own, up to what closes them. -/
def following (closing outer inner : List Char) : List (List Char) → List Char
  | [] => '\n' :: (outer ++ closing)
  | part :: parts => ',' :: '\n' :: (inner ++ (part ++ following closing outer inner parts))

theorem toList_intercalate_following (closing outer : List Char) (inner part : String)
    (parts : List String)
    : (String.intercalate ",\n" ((part :: parts).map (inner ++ ·))).toList
      ++ '\n' :: (outer ++ closing)
      = inner.toList
        ++ (part.toList ++ following closing outer inner.toList (parts.map String.toList)) := by
  induction parts generalizing part with
  | nil => simp [following]
  | cons next parts ih =>
      have later := ih next
      rw [List.map_cons] at later
      rw [List.map_cons, List.map_cons, String.intercalate_cons_cons, String.toList_append,
        String.toList_append, List.append_assoc, later, List.map_cons, following]
      simp

theorem toList_block_cons (depth : Nat) (opening closing part : String) (parts : List String)
    : (block depth opening closing (part :: parts)).toList
      = opening.toList
        ++ '\n' :: ((indentation (depth + 1)).toList
          ++ (part.toList
            ++ following closing.toList (indentation depth).toList (indentation (depth + 1)).toList
                (parts.map String.toList))) := by
  rw [← toList_intercalate_following]
  simp [block]

theorem numberEnds_cons {c : Char} {rest : List Char}
    (ends : c.isDigit = false ∧ c ≠ '.' ∧ c ≠ 'e' ∧ c ≠ 'E')
    : NumberEnds (c :: rest) := by
  intro d opens
  cases opens
  exact ends

theorem numberEnds_following (closing outer inner : List Char) (parts : List (List Char))
    (rest : List Char)
    : NumberEnds (following closing outer inner parts ++ rest) := by
  cases parts with
  | nil => exact numberEnds_cons (by decide)
  | cons part parts => exact numberEnds_cons (by decide)

theorem length_following_pos (closing outer inner : List Char) (parts : List (List Char))
    : 0 < (following closing outer inner parts).length := by
  cases parts <;> exact Nat.succ_pos _

/-- What closes the parts stands after the last one. -/
theorem skip_following_nil {c : Char} {outer : List Char} (blank : ∀ c ∈ outer, isSpace c)
    (noSpace : isSpace c = false) (inner rest : List Char)
    : skip (following [c] outer inner [] ++ rest) = c :: rest := by
  rw [following, List.cons_append, List.append_assoc, skip_line blank, List.singleton_append,
    skip_cons noSpace]

/-- A comma stands before the next part. -/
theorem skip_following_cons (closing outer inner part : List Char) (parts : List (List Char))
    (rest : List Char)
    : skip (following closing outer inner (part :: parts) ++ rest)
      = ',' :: '\n' :: (inner ++ (part ++ (following closing outer inner parts ++ rest))) := by
  rw [following, List.cons_append, skip_cons rfl]
  simp

theorem toList_block_nil (depth : Nat) (opening closing : String)
    : (block depth opening closing []).toList = opening.toList ++ closing.toList := by
  simp [block]

section Steps

variable {n : Nat} {source middle after rest : List Char} {value : Document} {name : String}

theorem itemsWithin_last (read : valueWithin n source = some (value, middle))
    (closes : skip middle = ']' :: rest)
    : itemsWithin (n + 1) source = some ([value], rest) := by
  rw [itemsWithin, read, Option.bind_eq_bind, Option.bind_some]
  simp only [closes]
  rfl

theorem itemsWithin_more {items : List Document}
    (read : valueWithin n source = some (value, middle))
    (goesOn : skip middle = ',' :: after) (others : itemsWithin n after = some (items, rest))
    : itemsWithin (n + 1) source = some (value :: items, rest) := by
  rw [itemsWithin, read, Option.bind_eq_bind, Option.bind_some]
  simp only [goesOn, others]
  rfl

theorem entriesWithin_last (opens : skip source = (quoted name).toList ++ ':' :: after)
    (read : valueWithin n after = some (value, middle)) (closes : skip middle = '\x7d' :: rest)
    : entriesWithin (n + 1) source = some ([(some name, value)], rest) := by
  have colon : skip (':' :: after) = ':' :: after := skip_cons rfl
  rw [toList_quoted] at opens
  rw [entriesWithin, opens]
  simp only [string?_quoted, Option.bind_eq_bind, Option.bind_some, colon, read, closes]
  rfl

theorem entriesWithin_more {entries : List (Option String × Document)} {later : List Char}
    (opens : skip source = (quoted name).toList ++ ':' :: after)
    (read : valueWithin n after = some (value, middle)) (goesOn : skip middle = ',' :: later)
    (others : entriesWithin n later = some (entries, rest))
    : entriesWithin (n + 1) source = some ((some name, value) :: entries, rest) := by
  have colon : skip (':' :: after) = ':' :: after := skip_cons rfl
  rw [toList_quoted] at opens
  rw [entriesWithin, opens]
  simp only [string?_quoted, Option.bind_eq_bind, Option.bind_some, colon, read, goesOn, others]
  rfl

theorem valueWithin_list {items : List Document} (opens : skip source = '[' :: after)
    (nonempty : (skip after).head? ≠ some ']')
    (read : itemsWithin n (skip after) = some (items, rest))
    : valueWithin (n + 1) source = some (.list items, rest) := by
  rw [valueWithin]
  simp only [opens]
  split
  · rename_i closes
    exact absurd (congrArg List.head? closes) nonempty
  · rw [read]
    rfl

theorem valueWithin_record {entries : List (Option String × Document)}
    (opens : skip source = '\x7b' :: after) (nonempty : (skip after).head? ≠ some '\x7d')
    (read : entriesWithin n (skip after) = some (entries, rest))
    : valueWithin (n + 1) source = some (recordOf entries, rest) := by
  rw [valueWithin]
  simp only [opens]
  split
  · rename_i closes
    exact absurd (congrArg List.head? closes) nonempty
  · rw [read]
    rfl

end Steps

/-- The text of an entry: its name in quotes, a colon and its value. -/
def IsEntryText (entry : String × Document) (text : List Char) : Prop :=
  ∃ value, IsText entry.2 value ∧ text = (quoted entry.1).toList ++ ':' :: ' ' :: value

theorem IsEntryText.opens {entry : String × Document} {text : List Char}
    (isText : IsEntryText entry text)
    : Opens text := by
  obtain ⟨value, -, same⟩ := isText
  rw [same, toList_quoted]
  exact ⟨_, _, rfl, rfl, by decide⟩

theorem IsEntryText.read {entry : String × Document} {text : List Char} {n : Nat}
    {source rest : List Char} (isText : IsEntryText entry text) (here : skip source = text ++ rest)
    (ends : NumberEnds rest) (enough : 2 * text.length < n)
    : ∃ after,
        skip source = (quoted entry.1).toList ++ ':' :: after
        ∧ valueWithin n after = some (entry.2, rest) := by
  obtain ⟨value, isValue, same⟩ := isText
  rw [same] at here enough
  refine ⟨' ' :: (value ++ rest), by simp [here], isValue.read ?_ ends ?_⟩
  · exact (List.dropWhile_cons_of_pos rfl).trans (isValue.opens.skip_append rest)
  · simp only [List.length_append, List.length_cons] at enough
    omega

/-- Entries that were read with their names are a record. -/
theorem recordOf_names (entries : List (String × Document))
    : recordOf (entries.map fun (name, value) => (some name, value)) = .record entries := by
  have named (read : Option String × Document → Option (String × Document))
      (each : ∀ name value, read (some name, value) = some (name, value))
      : (entries.map fun (name, value) => (some name, value)).mapM read = some entries := by
    induction entries with
    | nil => rfl
    | cons entry entries ih =>
        rw [List.map_cons, List.mapM_cons, ih, each]
        rfl
  rw [recordOf, named]
  exact fun name value => rfl

section Enclosed

variable {outer inner : List Char} (blankOuter : ∀ c ∈ outer, isSpace c)
  (blankInner : ∀ c ∈ inner, isSpace c)

theorem length_following_cons (closing part : List Char) (parts : List (List Char))
    : part.length + (following closing outer inner parts).length + 2
      ≤ (following closing outer inner (part :: parts)).length := by
  simp only [following, List.length_cons, List.length_append]
  omega

include blankInner in
/-- Only blanks stand between a comma and the part after it. -/
theorem skip_next {part : List Char} (opens : Opens part) (rest : List Char)
    : skip ('\n' :: (inner ++ (part ++ rest))) = part ++ rest := by
  rw [skip_line blankInner, opens.skip_append]

include blankOuter blankInner

/-- Items are read up to the closing bracket, by induction over those after the first one. -/
theorem itemsWithin_read {item : Document} {items : List Document} {text : List Char}
    {texts : List (List Char)} (first : IsText item text) (others : List.Forall₂ IsText items texts)
    {n : Nat} {source rest : List Char}
    (here : skip source = text ++ (following [']'] outer inner texts ++ rest))
    (enough : 2 * (text.length + (following [']'] outer inner texts).length) ≤ n)
    : itemsWithin n source = some (item :: items, rest) := by
  induction others generalizing item text n source with
  | nil =>
      have positive := length_following_pos [']'] outer inner []
      obtain ⟨n, rfl⟩ := Nat.exists_eq_succ_of_ne_zero (by omega : n ≠ 0)
      have read : valueWithin n source = some (item, following [']'] outer inner [] ++ rest) :=
        first.read here (numberEnds_following _ _ _ _ _) (by omega)
      exact itemsWithin_last read (skip_following_nil blankOuter rfl _ _)
  | @cons next nextText items texts second _ ih =>
      have longer := @length_following_cons outer inner [']'] nextText texts
      obtain ⟨n, rfl⟩ := Nat.exists_eq_succ_of_ne_zero (by omega : n ≠ 0)
      have read : valueWithin n source
          = some (item, following [']'] outer inner (nextText :: texts) ++ rest) :=
        first.read here (numberEnds_following _ _ _ _ _) (by omega)
      exact itemsWithin_more read (skip_following_cons _ _ _ _ _ _)
        (ih second (skip_next blankInner second.opens _) (by omega))

/-- Entries are read up to the closing brace, by induction over those after the first one. -/
theorem entriesWithin_read {entry : String × Document} {entries : List (String × Document)}
    {text : List Char} {texts : List (List Char)} (first : IsEntryText entry text)
    (others : List.Forall₂ IsEntryText entries texts) {n : Nat} {source rest : List Char}
    (here : skip source = text ++ (following ['\x7d'] outer inner texts ++ rest))
    (enough : 2 * (text.length + (following ['\x7d'] outer inner texts).length) ≤ n)
    : entriesWithin n source
      = some ((entry :: entries).map fun (name, value) => (some name, value), rest) := by
  induction others generalizing entry text n source with
  | nil =>
      have positive := length_following_pos ['\x7d'] outer inner []
      obtain ⟨n, rfl⟩ := Nat.exists_eq_succ_of_ne_zero (by omega : n ≠ 0)
      obtain ⟨after, opens, read⟩ : ∃ after, _ ∧ valueWithin n after = _ :=
        first.read here (numberEnds_following _ _ _ _ _) (by omega)
      exact entriesWithin_last opens read (skip_following_nil blankOuter rfl _ _)
  | @cons next nextText entries texts second _ ih =>
      have longer := @length_following_cons outer inner ['\x7d'] nextText texts
      obtain ⟨n, rfl⟩ := Nat.exists_eq_succ_of_ne_zero (by omega : n ≠ 0)
      obtain ⟨after, opens, read⟩ : ∃ after, _ ∧ valueWithin n after = _ :=
        first.read here (numberEnds_following _ _ _ _ _) (by omega)
      exact entriesWithin_more opens read (skip_following_cons _ _ _ _ _ _)
        (ih second (skip_next blankInner second.opens _) (by omega))

/-- A list with items is read back from the texts of its items. -/
theorem isText_items {item : Document} {items : List Document} {text : List Char}
    {texts : List (List Char)} (first : IsText item text) (others : List.Forall₂ IsText items texts)
    : IsText (.list (item :: items))
        ('[' :: '\n' :: (inner ++ (text ++ following [']'] outer inner texts))) := by
  refine ⟨⟨_, _, rfl, rfl, by decide⟩, ?_⟩
  intro n source rest here _ enough
  obtain ⟨n, rfl⟩ := Nat.exists_eq_succ_of_ne_zero (Nat.ne_zero_of_lt enough)
  simp only [List.cons_append, List.append_assoc] at here
  simp only [List.length_cons, List.length_append] at enough
  have start := skip_next blankInner first.opens (following [']'] outer inner texts ++ rest)
  refine valueWithin_list here ?_ ?_
  · rw [start]
    exact (first.opens.head?_ne _).1
  · rw [start]
    refine itemsWithin_read blankOuter blankInner first others ?_ (by omega)
    exact first.opens.skip_append _

/-- A record with entries is read back from the texts of its entries. -/
theorem isText_entries {entry : String × Document} {entries : List (String × Document)}
    {text : List Char} {texts : List (List Char)} (first : IsEntryText entry text)
    (others : List.Forall₂ IsEntryText entries texts)
    : IsText (.record (entry :: entries))
        ('\x7b' :: '\n' :: (inner ++ (text ++ following ['\x7d'] outer inner texts))) := by
  refine ⟨⟨_, _, rfl, rfl, by decide⟩, ?_⟩
  intro n source rest here _ enough
  obtain ⟨n, rfl⟩ := Nat.exists_eq_succ_of_ne_zero (Nat.ne_zero_of_lt enough)
  simp only [List.cons_append, List.append_assoc] at here
  simp only [List.length_cons, List.length_append] at enough
  have start := skip_next blankInner first.opens (following ['\x7d'] outer inner texts ++ rest)
  rw [← recordOf_names]
  refine valueWithin_record here ?_ ?_
  · rw [start]
    exact (first.opens.head?_ne _).2
  · rw [start]
    refine entriesWithin_read blankOuter blankInner first others ?_ (by omega)
    exact first.opens.skip_append _

end Enclosed

-----------------------------------------------------------------------------------------
-- Documents
-----------------------------------------------------------------------------------------

theorem isText_list {items : List Document} {texts : List String} (depth : Nat)
    (each : List.Forall₂ IsText items (texts.map String.toList))
    : IsText (.list items) (block depth "[" "]" texts).toList := by
  cases texts with
  | nil =>
      cases each
      rw [toList_block_nil]
      refine ⟨⟨_, _, rfl, rfl, by decide⟩, ?_⟩
      intro n source rest here _ enough
      obtain ⟨n, rfl⟩ := Nat.exists_eq_succ_of_ne_zero (Nat.ne_zero_of_lt enough)
      have here : skip source = '[' :: ']' :: rest := here
      rw [← valueWithin_skip, here]
      rfl
  | cons text texts =>
      cases each with
      | cons first others =>
          rw [toList_block_cons]
          exact isText_items isSpace_of_mem_indentation isSpace_of_mem_indentation first others

theorem isText_record {entries : List (String × Document)} {texts : List String} (depth : Nat)
    (each : List.Forall₂ IsEntryText entries (texts.map String.toList))
    : IsText (.record entries) (block depth "\x7b" "\x7d" texts).toList := by
  cases texts with
  | nil =>
      cases each
      rw [toList_block_nil]
      refine ⟨⟨_, _, rfl, rfl, by decide⟩, ?_⟩
      intro n source rest here _ enough
      obtain ⟨n, rfl⟩ := Nat.exists_eq_succ_of_ne_zero (Nat.ne_zero_of_lt enough)
      have here : skip source = '\x7b' :: '\x7d' :: rest := here
      rw [← valueWithin_skip, here]
      rfl
  | cons text texts =>
      cases each with
      | cons first others =>
          rw [toList_block_cons]
          exact isText_entries isSpace_of_mem_indentation isSpace_of_mem_indentation first others

mutual

/-- The document has no fraction in it and no integer that does not fit into 64 bits, and every part
of it denotes a value.
-/
def IsExact : Document → Prop
  | .integer value => -(Number.largestSigned64 + 1) ≤ value ∧ value ≤ Number.largestWord64
  | .list items => AreExact items
  | .record entries => HasExactValues entries
  | .fraction _ | .unreadable => False
  | .null | .boolean _ | .text _ => True

def AreExact : List Document → Prop
  | [] => True
  | item :: items => IsExact item ∧ AreExact items

def HasExactValues : List (String × Document) → Prop
  | [] => True
  | (_, value) :: entries => IsExact value ∧ HasExactValues entries

end

mutual

/-- A document is read back from its text, by induction over it. -/
theorem isText_prettyAt (depth : Nat) (document : Document) (exact : IsExact document)
    : IsText document (prettyAt depth document).toList := by
  cases document with
  | null => exact isText_null
  | boolean value => exact isText_boolean value
  | integer value => exact isText_integer exact.1 exact.2
  | fraction written => exact exact.elim
  | text value => exact isText_text value
  | list items =>
      rw [prettyAt]
      exact isText_list depth (isText_prettyItems (depth + 1) items exact)
  | record entries =>
      rw [prettyAt]
      exact isText_record depth (isText_prettyEntries (depth + 1) entries exact)
  | unreadable => exact exact.elim

theorem isText_prettyItems (depth : Nat) (items : List Document) (exact : AreExact items)
    : List.Forall₂ IsText items ((prettyItems depth items).map String.toList) := by
  cases items with
  | nil => exact .nil
  | cons item items =>
      rw [prettyItems, List.map_cons]
      exact .cons (isText_prettyAt depth item exact.1) (isText_prettyItems depth items exact.2)

theorem isText_prettyEntries (depth : Nat) (entries : List (String × Document))
    (exact : HasExactValues entries)
    : List.Forall₂ IsEntryText entries ((prettyEntries depth entries).map String.toList) := by
  match entries, exact with
  | [], _ => exact .nil
  | (name, value) :: entries, exact =>
      rw [prettyEntries, List.map_cons]
      refine .cons ⟨_, isText_prettyAt depth value exact.1, ?_⟩
        (isText_prettyEntries depth entries exact.2)
      simp

end

/-- What is printed on several lines is read back. -/
theorem read?_pretty {document : Document} (exact : IsExact document)
    : read? (pretty document) = some document := by
  have isText : IsText document (pretty document).toList := isText_prettyAt 0 document exact
  have here : skip (pretty document).toList = (pretty document).toList ++ [] := by
    simpa using isText.opens.skip_append []
  have read : valueWithin (2 * (pretty document).toList.length + 1) (pretty document).toList
      = some (document, []) :=
    isText.read here (by simp [NumberEnds]) (Nat.lt_succ_self _)
  rw [read?, read]
  rfl

end CypherSql.Json
