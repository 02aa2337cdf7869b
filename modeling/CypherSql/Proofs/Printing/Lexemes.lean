import CypherSql.Proofs.Printing.Printer
import CypherSql.Proofs.Printing.Replies
import Mathlib.Data.List.TakeDrop

/-! Blanks, marks, keywords, names, numbers and quoted texts are read back from their canonical
texts, and rejected where something else stands.
-/

namespace CypherSql.Cypher

open Text

-----------------------------------------------------------------------------------------
-- Marks
-----------------------------------------------------------------------------------------

section Marks

variable {α : Type} {p : Parser α} {value : α} {source rest : List Char} {c d : Char}

theorem padded_of_ok (read : p (skip source) = .ok value rest)
    : padded p source = .ok value (skip rest) :=
  (Parser.bind_of_ok rfl).trans ((Parser.bind_of_ok read).trans (Parser.bind_of_ok rfl))

theorem padded_rejects (rejects : p.Rejects (skip source)) : (padded p).Rejects source :=
  Parser.Rejects.bind_of_ok rfl rejects.bind

theorem char_read (c : Char) (rest : List Char) : char c (c :: rest) = .ok () rest := by
  rw [char, if_pos rfl]

/-- The source does not open with a character. -/
def Lacks (c : Char) (source : List Char) : Prop :=
  source.head? ≠ some c

theorem lacks_nil : Lacks c [] := by
  simp [Lacks]

theorem lacks_cons (other : d ≠ c) : Lacks c (d :: rest) := by
  simpa [Lacks] using other

theorem char_eq_ok {value : Unit} : char c source = .ok value rest ↔ source = c :: rest := by
  constructor
  · intro read
    unfold char at read
    split at read
    · split at read
      · rename_i same
        cases read
        rw [same]
      · cases read
    · cases read
  · rintro rfl
    exact char_read c rest

theorem char_rejects (lacks : Lacks c source) : (char c).Rejects source := by
  cases source with
  | nil => exact ⟨_, rfl⟩
  | cons d rest =>
      have other : d ≠ c := by simpa [Lacks] using lacks
      exact ⟨_, by rw [char, if_neg other]⟩

theorem mark_read (here : skip source = c :: rest) : mark c source = .ok () (skip rest) :=
  padded_of_ok (by rw [here, char_read])

theorem mark_rejects (lacks : Lacks c (skip source)) : (mark c).Rejects source :=
  padded_rejects (char_rejects lacks)

end Marks

-----------------------------------------------------------------------------------------
-- Keywords
-----------------------------------------------------------------------------------------

/-- No word goes on at the start of the source. -/
def WordEnds (source : List Char) : Prop :=
  ∀ c ∈ source.head?, isWordChar c = false

theorem wordEnds_nil : WordEnds [] := by
  simp [WordEnds]

theorem wordEnds_cons {c : Char} {rest : List Char} (ends : isWordChar c = false)
    : WordEnds (c :: rest) := by
  simpa [WordEnds] using ends

/-- A keyword: a word of ASCII letters. -/
structure IsWord (word : String) : Prop where
  narrow : word.utf8ByteSize = word.length
  nonempty : word.toList ≠ []
  letters : ∀ c ∈ word.toList, c.isAlpha

instance (word : String) : Decidable (IsWord word) :=
  decidable_of_iff
    (word.utf8ByteSize = word.length ∧ word.toList ≠ [] ∧ word.toList.all Char.isAlpha = true)
    ⟨fun ⟨narrow, nonempty, letters⟩ => ⟨narrow, nonempty, List.all_eq_true.mp letters⟩,
      fun isWord => ⟨isWord.narrow, isWord.nonempty, List.all_eq_true.mpr isWord.letters⟩⟩

/-- The character is an ASCII letter, and no other character is the same letter in another case. -/
def isPlain (c : Char) : Bool :=
  (foldCase c).isLower && foldCase c != 'k'

/-- A word of plain letters. -/
structure IsPlainWord (word : String) : Prop where
  narrow : word.utf8ByteSize = word.length
  letters : ∀ c ∈ word.toList, isPlain c

instance (word : String) : Decidable (IsPlainWord word) :=
  decidable_of_iff (word.utf8ByteSize = word.length ∧ word.toList.all isPlain = true)
    ⟨fun ⟨narrow, letters⟩ => ⟨narrow, List.all_eq_true.mp letters⟩,
      fun plain => ⟨plain.narrow, List.all_eq_true.mpr plain.letters⟩⟩

theorem isAlpha_of_isPlain {c : Char} (plain : isPlain c) : c.isAlpha := by
  simp only [isPlain, foldCase, Bool.and_eq_true, bne_iff_ne] at plain
  obtain ⟨lower, other⟩ := plain
  split at other
  · exact absurd rfl other
  · rename_i notKelvin
    rw [if_neg notKelvin] at lower
    have alpha : c.isAlpha = (c.isUpper || c.isLower) := rfl
    delta Char.toLower at lower
    split at lower
    · rename_i upper
      have upper : c.isUpper := by
        delta Char.isUpper
        simpa using upper
      simp [alpha, upper]
    · simp [alpha, lower]

theorem toNat_lt_of_isAlpha {c : Char} (alpha : c.isAlpha) : c.toNat < 128 := by
  have upper : 'Z'.val.toNat = 90 := rfl
  have lower : 'z'.val.toNat = 122 := rfl
  delta Char.isAlpha Char.isUpper Char.isLower at alpha
  simp only [Bool.or_eq_true, Bool.and_eq_true, decide_eq_true_eq, UInt32.le_iff_toNat_le] at alpha
  change c.val.toNat < 128
  omega

theorem isWordChar_of_isAlpha {c : Char} (alpha : c.isAlpha) : isWordChar c = true := by
  simp [isWordChar, isLetter, toNat_lt_of_isAlpha alpha, alpha]

theorem utf8Size_of_isAlpha {c : Char} (alpha : c.isAlpha) : c.utf8Size = 1 := by
  have small : c.val.toNat < 128 := toNat_lt_of_isAlpha alpha
  rw [Char.utf8Size_eq_one_iff, UInt32.le_iff_toNat_le]
  exact Nat.le_of_lt_succ small

theorem isSpace_of_isAlpha {c : Char} (alpha : c.isAlpha) : isSpace c = false := by
  refine Bool.eq_false_iff.mpr fun space => ?_
  simp only [isSpace, Bool.or_eq_true, decide_eq_true_eq] at space
  rcases space with ((rfl | rfl) | rfl) | rfl <;> cases alpha

/-- A plain letter is plain in either case. -/
theorem isPlain_of_foldCase {c d : Char} (same : foldCase d = foldCase c) (plain : isPlain c)
    : isPlain d := by
  rwa [isPlain, same]

/-- Letters that agree with those of a plain word are plain. -/
theorem forall_isPlain {word letters : List Char} (plain : ∀ c ∈ word, isPlain c)
    (same : letters.map foldCase = word.map foldCase)
    : ∀ c ∈ letters, isPlain c := by
  intro c member
  have folded : foldCase c ∈ word.map foldCase := same ▸ List.mem_map_of_mem member
  obtain ⟨d, inWord, equal⟩ := List.mem_map.mp folded
  exact isPlain_of_foldCase equal.symm (plain d inWord)

theorem byteSize_eq {letters : List Char} (narrow : ∀ c ∈ letters, c.utf8Size = 1)
    : byteSize letters = letters.length := by
  have sum (size : Nat) : letters.foldl (fun size c => size + c.utf8Size) size
      = size + letters.length := by
    induction letters generalizing size with
    | nil => rfl
    | cons c letters ih =>
        rw [List.forall_mem_cons] at narrow
        rw [List.foldl_cons, ih narrow.2, narrow.1, List.length_cons]
        omega
  rw [byteSize, sum, Nat.zero_add]

theorem dropBytes_append {letters rest : List Char} (narrow : ∀ c ∈ letters, c.utf8Size = 1)
    : dropBytes letters.length (letters ++ rest) = rest := by
  induction letters with
  | nil => rw [List.length_nil, List.nil_append, dropBytes]
  | cons c letters ih =>
      rw [List.forall_mem_cons] at narrow
      rw [List.length_cons, List.cons_append, dropBytes, narrow.1, Nat.add_sub_cancel]
      exact ih narrow.2

/-- A word and a source agree if they are the same as far as both go. -/
theorem agrees_iff {word source : List Char}
    : agrees word source = true
      ↔ (source.take word.length).map foldCase = (word.take source.length).map foldCase := by
  induction word generalizing source with
  | nil => simp [agrees]
  | cons w word ih =>
      cases source with
      | nil => simp [agrees]
      | cons c rest =>
          rw [agrees, Bool.and_eq_true, beq_iff_eq, ih]
          simp only [List.length_cons, List.take_succ_cons, List.map_cons, List.cons.injEq]
          exact and_congr_left' eq_comm

/-- A word is read in whatever case it is written. -/
theorem wordLiterally_read {word : String} {letters rest : List Char}
    (size : word.utf8ByteSize = word.length)
    (same : letters.map foldCase = word.toList.map foldCase)
    (narrow : ∀ c ∈ letters, c.utf8Size = 1)
    : wordLiterally word (letters ++ rest) = .ok () rest := by
  have length : letters.length = word.length := by
    simpa [String.length_toList] using congrArg List.length same
  have taken : (letters ++ rest).take word.length = letters := by rw [← length, List.take_left]
  have agree : agrees word.toList (letters ++ rest) = true := by
    rw [agrees_iff, String.length_toList, taken, same, List.take_of_length_le]
    simp [length, String.length_toList]
  rw [wordLiterally, agree, taken, byteSize_eq narrow, size, length]
  rw [if_pos (by simp), ← length, dropBytes_append narrow]

/-- A plain word is rejected where its letters do not stand. -/
theorem wordLiterally_rejects {word : String} (plain : IsPlainWord word) {source : List Char}
    (differs : (source.take word.length).map foldCase ≠ word.toList.map foldCase)
    : (wordLiterally word).Rejects source := by
  obtain ⟨size, letters⟩ := plain
  refine ⟨.here source .unexpected, ?_⟩
  rw [wordLiterally, if_neg]
  rw [Bool.and_eq_true, decide_eq_true_eq, size, agrees_iff, String.length_toList]
  rintro ⟨same, long⟩
  have narrow : ∀ c ∈ source.take word.length, c.utf8Size = 1 := by
    have plain := forall_isPlain (fun c member => letters c (List.mem_of_mem_take member)) same
    exact fun c member => utf8Size_of_isAlpha (isAlpha_of_isPlain (plain c member))
  rw [byteSize_eq narrow, List.length_take] at long
  have whole : word.toList.take source.length = word.toList := by
    rw [List.take_of_length_le]
    rw [String.length_toList]
    omega
  exact differs (whole ▸ same)

theorem wordEnd_read {source : List Char} (ends : WordEnds source)
    : wordEnd source = .ok () source := by
  cases source with
  | nil => rfl
  | cons c rest =>
      have ends : isWordChar c = false := by simpa [WordEnds] using ends
      simp [wordEnd, ends]

theorem wordEnd_rejects {c : Char} {rest : List Char} (goesOn : isWordChar c)
    : wordEnd.Rejects (c :: rest) :=
  ⟨_, by rw [wordEnd, if_pos goesOn]⟩

/-- The text does not open with a blank. -/
def Solid (text : List Char) : Prop :=
  ∃ c others, text = c :: others ∧ isSpace c = false

theorem Solid.ne_nil {text : List Char} (solid : Solid text) : text ≠ [] := by
  obtain ⟨c, others, rfl, -⟩ := solid
  exact List.cons_ne_nil c others

theorem Solid.skip_append {text : List Char} (solid : Solid text) (rest : List Char)
    : skip (text ++ rest) = text ++ rest := by
  obtain ⟨c, others, rfl, noSpace⟩ := solid
  rw [List.cons_append, skip_cons noSpace]

theorem padded_read {α : Type} {p : Parser α} {value : α} {text : List Char} {rest : List Char}
    (solid : Solid text) (read : p (text ++ rest) = .ok value rest)
    : padded p (text ++ rest) = .ok value (skip rest) :=
  padded_of_ok (by rw [solid.skip_append, read])

theorem IsWord.solid {word : String} (isWord : IsWord word) : Solid word.toList := by
  obtain ⟨c, others, opens⟩ := List.exists_cons_of_ne_nil isWord.nonempty
  exact ⟨c, others, opens, isSpace_of_isAlpha (isWord.letters c (by simp [opens]))⟩

section Keywords

variable {word : String} {source letters rest : List Char}

/-- A keyword is read in whatever case it is written. -/
theorem keyword_read_letters (size : word.utf8ByteSize = word.length)
    (here : skip source = letters ++ rest) (same : letters.map foldCase = word.toList.map foldCase)
    (narrow : ∀ c ∈ letters, c.utf8Size = 1) (ends : WordEnds rest)
    : keyword word source = .ok () (skip rest) := by
  refine padded_of_ok ?_
  rw [here, Parser.bind_of_ok (wordLiterally_read size same narrow), wordEnd_read ends]

/-- A keyword is read where it stands. -/
theorem keyword_read (isWord : IsWord word) (here : skip source = word.toList ++ rest)
    (ends : WordEnds rest)
    : keyword word source = .ok () (skip rest) :=
  keyword_read_letters isWord.narrow here rfl
    (fun c member => utf8Size_of_isAlpha (isWord.letters c member))
    ends

/-- A keyword is rejected where another word stands. -/
theorem keyword_rejects_word (plain : IsPlainWord word) (here : skip source = letters ++ rest)
    (isWord : ∀ c ∈ letters, isWordChar c) (ends : WordEnds rest)
    (differs : letters.map foldCase ≠ word.toList.map foldCase)
    : (keyword word).Rejects source := by
  refine padded_rejects ?_
  rw [here]
  by_cases same : ((letters ++ rest).take word.length).map foldCase = word.toList.map foldCase
  · have isPlain := forall_isPlain plain.letters same
    have length : ((letters ++ rest).take word.length).length = word.length := by
      simpa [String.length_toList] using congrArg List.length same
    -- The word ends inside the letters: where they end no letter of the word can follow.
    have inside : word.length < letters.length := by
      by_contra short
      rcases Nat.lt_or_eq_of_le (Nat.le_of_not_lt short) with less | equal
      · cases rest with
        | nil =>
            simp at length
            omega
        | cons c rest =>
            have member : c ∈ (letters ++ c :: rest).take word.length := by
              obtain ⟨n, more⟩ : ∃ n, word.length = letters.length + (n + 1) :=
                ⟨word.length - letters.length - 1, by omega⟩
              simp [more, List.take_append]
            have goesOn := isWordChar_of_isAlpha (isAlpha_of_isPlain (isPlain c member))
            have ended : isWordChar c = false := by simpa [WordEnds] using ends
            rw [ended] at goesOn
            cases goesOn
      · rw [← equal, List.take_left] at same
        exact differs same
    have narrow : ∀ c ∈ (letters ++ rest).take word.length, c.utf8Size = 1 :=
      fun c member => utf8Size_of_isAlpha (isAlpha_of_isPlain (isPlain c member))
    have split : letters ++ rest
        = (letters ++ rest).take word.length ++ (letters.drop word.length ++ rest) := by
      rw [← List.drop_append_of_le_length (Nat.le_of_lt inside), List.take_append_drop]
    rw [split]
    refine Parser.Rejects.bind_of_ok (wordLiterally_read plain.narrow same narrow) ?_
    have goesOn : letters.drop word.length ≠ [] := by
      rw [Ne, List.drop_eq_nil_iff]
      omega
    obtain ⟨c, more, after⟩ := List.exists_cons_of_ne_nil goesOn
    rw [after]
    exact wordEnd_rejects (isWord c (List.mem_of_mem_drop (after ▸ List.mem_cons_self)))
  · exact (wordLiterally_rejects plain same).bind

/-- A keyword is rejected where something else stands than its first letter. -/
theorem keyword_rejects_head (nonempty : 0 < word.utf8ByteSize)
    (differs : word.toList.head?.map foldCase ≠ (skip source).head?.map foldCase)
    : (keyword word).Rejects source := by
  refine padded_rejects (Parser.Rejects.bind ⟨.here (skip source) .unexpected, ?_⟩)
  rw [wordLiterally, if_neg]
  rw [Bool.and_eq_true, decide_eq_true_eq]
  rintro ⟨agree, long⟩
  cases ofWord : word.toList with
  | nil =>
      have empty : word = "" := String.toList_eq_nil_iff.mp ofWord
      rw [empty] at nonempty
      cases nonempty
  | cons w letters =>
      cases ofSource : skip source with
      | nil =>
          rw [ofSource, List.take_nil] at long
          exact absurd (Nat.lt_of_lt_of_le nonempty long) (Nat.lt_irrefl 0)
      | cons c rest =>
          rw [ofWord, ofSource, agrees, Bool.and_eq_true, beq_iff_eq] at agree
          rw [ofWord, ofSource] at differs
          exact differs (congrArg some agree.1)

end Keywords

-----------------------------------------------------------------------------------------
-- Runs of characters
-----------------------------------------------------------------------------------------

section Runs

variable {holds : Char → Bool} {taken rest : List Char}

/-- A run of characters ends where one stands that is of another kind. -/
theorem takeWhile_append_of_ends (all : ∀ c ∈ taken, holds c)
    (ends : ∀ c ∈ rest.head?, holds c = false)
    : (taken ++ rest).takeWhile holds = taken ∧ (taken ++ rest).dropWhile holds = rest := by
  rw [List.takeWhile_append_of_pos all, List.dropWhile_append_of_pos all]
  cases rest with
  | nil => simp
  | cons c rest =>
      have ends : holds c = false := by simpa using ends
      simp [ends]

theorem run1_read (nonempty : taken ≠ []) (all : ∀ c ∈ taken, holds c)
    (ends : ∀ c ∈ rest.head?, holds c = false)
    : run1 holds (taken ++ rest) = .ok taken rest := by
  obtain ⟨takes, drops⟩ := takeWhile_append_of_ends all ends
  rw [run1, List.span_eq_takeWhile_dropWhile, takes, drops]
  cases taken with
  | nil => exact absurd rfl nonempty
  | cons c taken => rfl

theorem run1_rejects (ends : ∀ c ∈ rest.head?, holds c = false) : (run1 holds).Rejects rest := by
  have none : rest.takeWhile holds = [] := by
    cases rest with
    | nil => rfl
    | cons c rest => simpa using ends
  exact ⟨_, by rw [run1, List.span_eq_takeWhile_dropWhile, none]⟩

/-- What a run takes is of its kind, and what is left is not. -/
theorem run1_eq_ok {source : List Char} (read : run1 holds source = .ok taken rest)
    : source = taken ++ rest ∧ taken ≠ [] ∧ (∀ c ∈ taken, holds c)
      ∧ ∀ c ∈ rest.head?, holds c = false := by
  rw [run1, List.span_eq_takeWhile_dropWhile] at read
  split at read
  · cases read
  · rename_i taken' rest' nonempty same
    cases read
    obtain ⟨rfl, rfl⟩ := Prod.mk.inj same
    refine ⟨List.takeWhile_append_dropWhile.symm, nonempty, fun c => List.mem_takeWhile_imp, ?_⟩
    intro c member
    have stops := List.head?_dropWhile_not holds source
    rwa [Option.mem_def.mp member] at stops

end Runs

-----------------------------------------------------------------------------------------
-- Names
-----------------------------------------------------------------------------------------

theorem isWordChar_of_isWordStart {c : Char} (starts : isWordStart c) : isWordChar c := by
  simp only [isWordStart, isWordChar, Bool.or_eq_true] at starts ⊢
  exact starts.imp_left .inl

section Names

variable {source rest : List Char}

theorem quotedName_read {name : List Char} (noQuote : '`' ∉ name) (rest : List Char)
    : quotedName ('`' :: (name ++ '`' :: rest)) = .ok name rest := by
  have all : ∀ c ∈ name, (c != '`') = true := by
    intro c member
    simpa using ne_of_mem_of_not_mem member noQuote
  have ends : ∀ c ∈ ('`' :: rest).head?, (c != '`') = false := by simp
  obtain ⟨takes, drops⟩ := takeWhile_append_of_ends all ends
  have body : untilBackquote (name ++ '`' :: rest) = .ok name ('`' :: rest) := by
    rw [untilBackquote, if_pos (by simp), takes, drops]
  rw [quotedName, Parser.bind_of_ok (char_read _ _), Parser.bind_of_ok body,
    Parser.bind_of_ok (char_read _ _), Parser.pure_eq]

theorem printName_append (name : String) (rest : List Char)
    : printName name ++ rest = '`' :: (name.toList ++ '`' :: rest) := by
  simp [printName]

theorem solid_printName (name : String) : Solid (printName name) :=
  ⟨'`', _, rfl, by decide⟩

theorem symbolicName_printed {name : String} (noQuote : '`' ∉ name.toList) (rest : List Char)
    : symbolicName (printName name ++ rest) = .ok name.toList rest := by
  rw [printName_append]
  exact Parser.choice_eq_ok.mpr (.here (quotedName_read noQuote rest))

theorem symbol_read {name : String} (noQuote : '`' ∉ name.toList) (rest : List Char)
    : symbol (printName name ++ rest) = .ok name rest := by
  rw [symbol, Parser.bind_of_ok (symbolicName_printed noQuote rest), Parser.pure_eq,
    String.ofList_toList]

theorem identifier_read {name : String} (noQuote : '`' ∉ name.toList) (rest : List Char)
    : identifier (printName name ++ rest) = .ok name rest := by
  rw [identifier, printName_append,
    Parser.bind_of_ok (Parser.choice_eq_ok.mpr (.here (quotedName_read noQuote rest))),
    Parser.pure_eq, String.ofList_toList]

/-- A part of a function name as it is written: a name in backquotes or a word. -/
inductive Segment : List Char → Prop where
  | quoted {name} (noQuote : '`' ∉ name) : Segment ('`' :: (name ++ ['`']))
  | bare {c letters} (starts : isWordStart c) (isWord : ∀ d ∈ letters, isWordChar d)
    : Segment (c :: letters)

/-- A word is read up to its end. -/
theorem bareName_read {c : Char} {letters : List Char} (starts : isWordStart c)
    (isWord : ∀ d ∈ letters, isWordChar d) (ends : WordEnds rest)
    : bareName (c :: letters ++ rest) = .ok (c :: letters) rest := by
  have whole : (c :: letters).takeWhile isWordStart ++ (c :: letters).dropWhile isWordStart
      = c :: letters :=
    List.takeWhile_append_dropWhile
  have opening : ∀ d ∈ (c :: letters).takeWhile isWordStart, isWordStart d :=
    fun d => List.mem_takeWhile_imp
  have inWord : ∀ d ∈ (c :: letters).dropWhile isWordStart, isWordChar d := by
    intro d member
    rcases List.mem_cons.mp (List.dropWhile_sublist _ |>.subset member) with rfl | inLetters
    · exact isWordChar_of_isWordStart starts
    · exact isWord d inLetters
  have nonempty : (c :: letters).takeWhile isWordStart ≠ [] := by simp [starts]
  have stops := List.head?_dropWhile_not isWordStart (c :: letters)
  generalize (c :: letters).takeWhile isWordStart = start,
    (c :: letters).dropWhile isWordStart = more at whole opening inWord nonempty stops
  have startEnds : ∀ d ∈ (more ++ rest).head?, isWordStart d = false := by
    intro d opens
    cases more with
    | nil =>
        refine Bool.eq_false_iff.mpr fun starts => ?_
        exact absurd (isWordChar_of_isWordStart starts) (by simpa using ends d opens)
    | cons e more =>
        obtain rfl : e = d := by simpa using opens
        exact stops
  obtain ⟨takes, drops⟩ := takeWhile_append_of_ends inWord ends
  have goesOn : run isWordChar (more ++ rest) = .ok more rest := by rw [run, takes, drops]
  rw [← whole, List.append_assoc, bareName,
    Parser.bind_of_ok (run1_read nonempty opening startEnds), Parser.bind_of_ok goesOn,
    Parser.pure_eq]

/-- A part of a function name is read where a word may end. -/
theorem Segment.read {text : List Char} (segment : Segment text) (ends : WordEnds rest)
    : ∃ name, symbolicName (text ++ rest) = .ok name rest := by
  cases segment with
  | @quoted name noQuote =>
      refine ⟨name, Parser.choice_eq_ok.mpr (.here ?_)⟩
      simpa using quotedName_read noQuote rest
  | bare starts isWord =>
      rename_i c letters
      refine ⟨c :: letters, Parser.choice_eq_ok.mpr
        (.there ?_ (.here (bareName_read starts isWord ends)))⟩
      refine Parser.Rejects.bind (char_rejects (lacks_cons ?_))
      rintro rfl
      exact absurd starts (by decide)

/-- What is read between backquotes has none in it. -/
theorem quotedName_eq_ok {name : List Char} (read : quotedName source = .ok name rest)
    : '`' ∉ name ∧ source = '`' :: (name ++ '`' :: rest) := by
  obtain ⟨_, middle, opens, read⟩ := Parser.bind_eq_ok.mp read
  obtain ⟨body, later, inside, read⟩ := Parser.bind_eq_ok.mp read
  obtain ⟨_, after, closes, same⟩ := Parser.bind_eq_ok.mp read
  cases same
  obtain rfl := char_eq_ok.mp opens
  obtain rfl := char_eq_ok.mp closes
  unfold untilBackquote at inside
  split at inside
  · obtain ⟨rfl, drops⟩ := Reply.ok.inj inside
    refine ⟨fun member => ?_, ?_⟩
    · simpa using List.mem_takeWhile_imp member
    · rw [← drops, List.takeWhile_append_dropWhile]
  · cases inside

/-- What is read as a word is one, up to its end. -/
theorem bareName_eq_ok {name : List Char} (read : bareName source = .ok name rest)
    : source = name ++ rest
      ∧ WordEnds rest
      ∧ ∃ c letters, name = c :: letters ∧ isWordStart c ∧ ∀ d ∈ letters, isWordChar d := by
  obtain ⟨start, middle, starts, read⟩ := Parser.bind_eq_ok.mp read
  obtain ⟨more, later, goesOn, same⟩ := Parser.bind_eq_ok.mp read
  cases same
  obtain ⟨rfl, nonempty, opening, -⟩ := run1_eq_ok starts
  obtain ⟨rfl, rfl⟩ := Reply.ok.inj goesOn
  refine ⟨by rw [List.append_assoc, List.takeWhile_append_dropWhile], ?_, ?_⟩
  · intro c opens
    have stops := List.head?_dropWhile_not isWordChar middle
    rwa [Option.mem_def.mp opens] at stops
  · obtain ⟨c, letters, rfl⟩ := List.exists_cons_of_ne_nil nonempty
    rw [List.forall_mem_cons] at opening
    refine ⟨c, letters ++ middle.takeWhile isWordChar, rfl, opening.1, ?_⟩
    refine List.forall_mem_append.mpr ⟨fun d member => ?_, fun d => List.mem_takeWhile_imp⟩
    exact isWordChar_of_isWordStart (opening.2 d member)

/-- What is read as a part of a function name is one, and a word is read up to its end. -/
theorem symbolicName_eq_ok {name : List Char} (read : symbolicName source = .ok name rest)
    : ∃ text, Segment text ∧ source = text ++ rest ∧ (text.head? ≠ some '`' → WordEnds rest) := by
  cases Parser.choice_eq_ok.mp read with
  | here read =>
      obtain ⟨noQuote, rfl⟩ := quotedName_eq_ok read
      exact ⟨_, .quoted noQuote, by simp, fun bare => absurd rfl bare⟩
  | there _ later =>
      cases later with
      | here read =>
          obtain ⟨rfl, ends, c, letters, rfl, starts, isWord⟩ := bareName_eq_ok read
          exact ⟨c :: letters, .bare starts isWord, rfl, fun _ => ends⟩
      | there _ later => cases later

end Names

-----------------------------------------------------------------------------------------
-- Numbers and texts
-----------------------------------------------------------------------------------------

section Numbers

variable {rest : List Char}

/-- No digit opens the source. -/
def LacksDigit (source : List Char) : Prop :=
  ∀ c ∈ source.head?, c.isDigit = false

theorem digits_read (value : Nat) (ends : LacksDigit rest)
    : digits (printNumber value ++ rest) = .ok (printNumber value) rest :=
  run1_read Nat.toDigits_ne_nil
    (fun _ => Nat.isDigit_of_mem_toDigits (by decide) (by decide)) ends

theorem LacksDigit.digits {source : List Char} (lacks : LacksDigit source)
    : digits.Rejects source :=
  run1_rejects lacks

theorem decimalValue_printNumber (value : Nat) : decimalValue (printNumber value) = value :=
  Nat.ofDigitChars_toDigits (by decide) (by decide)

theorem decimalUpTo_printNumber {bound value : Nat} (within : value ≤ bound)
    : decimalUpTo bound (printNumber value) = some value := by
  rw [decimalUpTo, decimalValue_printNumber, if_pos within]

theorem toNat_lt_of_isDigit {c : Char} (digit : c.isDigit) : c.toNat < 128 := by
  simp only [Char.isDigit, Bool.and_eq_true, decide_eq_true_eq, UInt32.le_iff_toNat_le] at digit
  have nine : '9'.val.toNat = 57 := rfl
  change c.val.toNat < 128
  omega

theorem not_isDigit_of_isAlpha {c : Char} (alpha : c.isAlpha) : c.isDigit = false := by
  refine Bool.eq_false_iff.mpr fun digit => ?_
  delta Char.isAlpha Char.isUpper Char.isLower at alpha
  simp only [Char.isDigit, Bool.or_eq_true, Bool.and_eq_true, decide_eq_true_eq,
    UInt32.le_iff_toNat_le] at alpha digit
  have nine : '9'.val.toNat = 57 := rfl
  have upper : 'A'.val.toNat = 65 := rfl
  have lower : 'a'.val.toNat = 97 := rfl
  omega

theorem isWordChar_of_isDigit {c : Char} (digit : c.isDigit) : isWordChar c := by
  simp [isWordChar, isNumeral, toNat_lt_of_isDigit digit, digit]

theorem WordEnds.lacksDigit {source : List Char} (ends : WordEnds source) : LacksDigit source := by
  intro c opens
  refine Bool.eq_false_iff.mpr fun digit => ?_
  exact absurd (isWordChar_of_isDigit digit) (by simp [ends c opens])

end Numbers

/-- The body of a string literal: its own quote and the backslash stand in it only after a
backslash.
-/
inductive QuotedBody (quote : Char) : List Char → Prop where
  | nil : QuotedBody quote []
  | escaped {c body} (escapable : isEscapable c) (rest : QuotedBody quote body)
    : QuotedBody quote ('\\' :: c :: body)
  | plain {c body} (notQuote : c ≠ quote) (notBackslash : c ≠ '\\') (rest : QuotedBody quote body)
    : QuotedBody quote (c :: body)

section Texts

variable {quote : Char} {body : List Char}

/-- A body is read up to its closing quote, by induction over it. -/
theorem QuotedBody.read (inside : QuotedBody quote body) (isQuote : quote ≠ '\\') (rest : List Char)
    : quotedBody? quote (body ++ quote :: rest) = some (body, quote :: rest) := by
  induction inside with
  | nil =>
      rw [List.nil_append, quotedBody?]
      · simp
      · exact fun _ _ same => absurd same isQuote
      · exact fun same => absurd same isQuote
  | escaped escapable _ ih => simp [quotedBody?, escapable, ih]
  | plain notQuote other _ ih =>
      rw [List.cons_append, quotedBody?]
      · simp [notQuote, ih]
      · exact fun _ _ same => absurd same other
      · exact fun same => absurd same other

theorem quotedText_read (inside : QuotedBody quote body) (isQuote : quote ≠ '\\') (rest : List Char)
    : quotedText quote (quote :: (body ++ quote :: rest)) = .ok (String.ofList body) rest := by
  rw [quotedText, Parser.bind_of_ok (char_read _ _)]
  refine (Parser.bind_of_ok (?_ : _ = Reply.ok body (quote :: rest))).trans ?_
  · rw [inside.read isQuote]
  · rw [Parser.bind_of_ok (char_read _ _), Parser.pure_eq]

/-- What is split off before a closing quote is the body of a string literal. -/
theorem quotedBody_of_eq_some {source rest : List Char}
    (split : quotedBody? quote source = some (body, rest))
    : QuotedBody quote body := by
  fun_induction quotedBody? quote source generalizing body rest with
  | case1 =>
      cases split
      exact .nil
  | case2 c source escapable ih =>
      obtain ⟨⟨body', rest'⟩, found, same⟩ := Option.map_eq_some_iff.mp split
      cases same
      exact .escaped escapable (ih found)
  | case3 => cases split
  | case4 => cases split
  | case5 source =>
      cases split
      exact .nil
  | case6 c source notEscape notLast notQuote ih =>
      obtain ⟨⟨body', rest'⟩, found, same⟩ := Option.map_eq_some_iff.mp split
      cases same
      have notBackslash : c ≠ '\\' := by
        intro same
        cases source with
        | nil => exact notLast same rfl
        | cons d source => exact notEscape d source same rfl
      exact .plain notQuote notBackslash (ih found)

theorem hasUnescaped_cons {c : Char} (notBackslash : c ≠ '\\')
    : hasUnescaped quote (c :: body) = (c == quote || hasUnescaped quote body) := by
  rw [hasUnescaped]
  exact fun _ _ same => absurd same notBackslash

/-- Where a quote does not stand by itself, it may enclose the body. -/
theorem QuotedBody.requote {other : Char} (inside : QuotedBody other body)
    (absent : hasUnescaped quote body = false)
    : QuotedBody quote body := by
  induction inside with
  | nil => exact .nil
  | escaped escapable _ ih => exact .escaped escapable (ih absent)
  | plain _ notBackslash _ ih =>
      rw [hasUnescaped_cons notBackslash, Bool.or_eq_false_iff, beq_eq_false_iff_ne] at absent
      exact .plain absent.1 notBackslash (ih absent.2)

theorem QuotedBody.hasUnescaped_eq_false (inside : QuotedBody quote body)
    : hasUnescaped quote body = false := by
  induction inside with
  | nil => rfl
  | escaped _ _ ih => exact ih
  | plain notQuote notBackslash _ ih => simp [hasUnescaped_cons notBackslash, notQuote, ih]

/-- The body of a string literal may be enclosed in the quote that is chosen for it. -/
theorem QuotedBody.quoteFor (inside : QuotedBody quote body) (isQuote : quote = '\'' ∨ quote = '"')
    : QuotedBody (quoteFor body) body := by
  unfold Cypher.quoteFor
  split
  · rename_i unescaped
    rcases isQuote with rfl | rfl
    · rw [inside.hasUnescaped_eq_false] at unescaped
      cases unescaped
    · exact inside
  · rename_i absent
    exact inside.requote (Bool.eq_false_iff.mpr absent)

end Texts

end CypherSql.Cypher
